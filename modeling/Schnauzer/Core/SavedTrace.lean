import Schnauzer.Core.ExitFlush
import Schnauzer.Core.Ownership
import Schnauzer.Core.SlotEvents

/-!
# The trace of a run

All that holds of the log and the history in every state of a run (`RunInv`), and what it says about the
events of the trace file.

## What is proved

* `runInv_of_reachable` — the invariant of all runs that no `assert` has stopped.
* `RunInv.label_of_event`, `RunInv.event_of_label` — an event of the log and the label where its slot was
  reserved.
* `exists_file` — the file of any run is the file of a run that no `assert` has stopped.
* `RunInv.slot_before`, `RunInv.slot_after` — the slot of a label that is logged before the real call, and of one
  that is logged after it.
-/

namespace Schnauzer

/-- The calls that log an operation after it has happened. -/
def LogCall.isBehind : LogCall → Bool
  | .logThreadJoinEvent _ | .logCondAwakeEvent _ _ => true
  | .logSyncOpEvent ty _ => ty = .lock || ty = .trylock
  | _ => false

namespace Interface

open Logger Runs

variable {cfg : Config} {s s' : State} {a : Action}

/-- The log and the history. -/
structure RunInv (cfg : Config) (s : State) : Prop where
  log : LogInv s
  shape : ∀ t, (s.thr t).pc.Shape cfg
  phase : ∀ t, Phase s t (s.thr t).pc
  places : Places s
  threads : Threads s
  owners : Owners s
  labels : Labels s
  batches : Batches s
  events : Events s

theorem RunInv.init : RunInv cfg init where
  log := .init
  shape := fun t => by
    by_cases ht : t = 0
    · simp [Interface.init, ht, Pc.Shape]
    · simp [Interface.init, ht, Pc.Shape]
  phase := fun t => by
    by_cases ht : t = 0
    · simp [Interface.init, ht, Phase]
    · simp [Interface.init, ht, Phase]
  places := .init
  threads := .init
  owners := .init
  labels := .init
  batches := .init
  events := .init

/-- **One step.** -/
theorem RunInv.step (h : RunInv cfg s) (hen : cfg.log.enable = true) (hstep : Stepped cfg s a s')
    (hab : s'.log.aborted = none) : RunInv cfg s' where
  log := (h.log.step hen hstep).resolve_right fun hfull => by
    rw [hfull.1] at hab
    cases hab
  shape := shape_of_step hstep h.shape
  phase := Phase.step h.log hen h.shape (started_le hstep h.labels.start) hstep hab h.phase
  places := h.places.step (recorded_of_step hstep)
  threads := h.threads.step h.log.start hstep
  owners := h.owners.step h.shape hstep
  labels := h.labels.step h.log h.places h.shape h.phase hstep
  batches := h.batches.step h.log hen h.shape h.phase hstep hab
  events := Events.step h.events h.log hen h.shape h.phase h.batches hstep hab

/-- **The invariant** of all runs that no `assert` has stopped, with what else a run keeps. -/
theorem runInv_of_reachable {P : State → Action → Prop} {I : State → Prop} (hen : cfg.log.enable = true)
    (h : ReachableBy cfg P s) (hab : s.log.aborted = none) (hI : I init)
    (hkeep : ∀ s a s', RunInv cfg s → I s → P s a → Stepped cfg s a s' → s'.log.aborted = none → I s') :
    RunInv cfg s ∧ I s := by
  refine h.invariant (I := fun s => s.log.aborted = none → RunInv cfg s ∧ I s) (fun _ => ⟨.init, hI⟩) ?_ hab
  intro s a s' ih hP hs hab'
  obtain ⟨hab, hstep⟩ := step_cases hs
  obtain ⟨hinv, hi⟩ := ih hab
  exact ⟨hinv.step hen hstep hab', hkeep s a s' hinv hi hP hstep hab'⟩

/-! ### Events and labels -/

/-- **The label of an event.** -/
theorem RunInv.label_of_event (h : RunInv cfg s) {n : ℕ} {e : Event} (he : s.log.events n = some e) :
    n < s.log.logSz ∧ ∃ lc f, f ≤ n ∧ s.At (s.place n) e.tid (.log lc f) ∧ e.LoggedAs lc (n - f) :=
  ⟨(h.events n e (Or.inl he)).1, (h.events n e (Or.inl he)).2.1⟩

/-- **The event of a label.** -/
theorem RunInv.event_of_label (h : RunInv cfg s) {p t f : ℕ} {lc : LogCall} (hat : s.At p t (.log lc f))
    {e : Event} (he : s.log.events f = some e) : e.tid = t ∧ e.LoggedAs lc 0 := by
  obtain ⟨-, lc', f', hf, hat', hlog⟩ := h.label_of_event he
  rw [(h.places.first p t lc f hat).2.1] at hat'
  obtain ⟨htid, heq⟩ := hat'.unique hat
  cases heq
  rw [Nat.sub_self] at hlog
  exact ⟨htid, hlog⟩

/-- The file of a run that an `assert` has stopped is the file before. -/
theorem exists_file {P : State → Action → Prop} (h : ReachableBy cfg P s) :
    ∃ s₀, ReachableBy cfg P s₀ ∧ s₀.log.aborted = none ∧ s₀.file = s.file ∧ (s₀ = s ∨ ∃ a, Recorded s₀ a s) := by
  by_cases hab : s.log.aborted = none
  · exact ⟨s, h, hab, rfl, Or.inl rfl⟩
  cases h with
  | refl => exact absurd rfl hab
  | @tail s₀ _ a h₀ ha hs =>
    obtain ⟨hab₀, hstep⟩ := step_cases hs
    refine ⟨s₀, h₀, hab₀, ?_, Or.inr ⟨a, recorded_of_step hstep⟩⟩
    rcases file_of_step hstep with ⟨hfile, -⟩ | ⟨t, rfl, -, rfl⟩ | ⟨t, i, rfl, -, rfl⟩
    · exact hfile.symm
    · rfl
    · unfold flushRound at hab ⊢
      split_ifs at hab ⊢
      · split at hab
        next e he =>
          simp only
          split_ifs at hab ⊢
          · rfl
          · exact absurd hab₀ hab
          · rfl
        next he => simp only
      · rfl

theorem not_logsBefore {act : Act} {lc : LogCall} (hlc : lc.isBehind) : ¬ act.logsBefore lc := by
  intro h
  cases act with
  | spawn c =>
    obtain rfl : lc = _ := h
    cases hlc
  | release m => rcases h with rfl | ⟨c, rfl⟩ <;> cases hlc
  | signal c i => rcases h with rfl | rfl <;> cases hlc
  | _ => exact h.elim

section Slots

variable {p t i : ℕ} {act : Act} {lc : LogCall}

/-- **A label that is logged before** has its slot, behind whatever the thread has logged before, unless it comes
after `exit`. -/
theorem RunInv.slot_before (h : RunInv cfg s) (hi : s.At i t act) (hact : act.isBefore)
    (hstart : ∃ I, s.started = some I ∧ I ≤ i) (hfin : ∀ F, s.finished = some F → i < F) :
    ∃ n lc, s.rep i = some n ∧ act.logsBefore lc ∧ n < s.log.logSz ∧ s.At (s.place n) t (.log lc n) ∧
      s.place n < i ∧ ∀ j act', s.At j t act' → j ≤ s.place n ∨ i ≤ j := by
  cases hrep : s.rep i with
  | none =>
    obtain ⟨I, hI, hle⟩ := hstart
    rcases h.labels.before i t act hi hact hrep with hoff | ⟨F, hF, hle'⟩
    · exact absurd (hoff I hI) (not_lt.mpr hle)
    · exact absurd (hfin F hF) (not_lt.mpr hle')
  | some n =>
    obtain ⟨t', act', lc, hi', hn, hat, -, hcase⟩ := h.labels.rep i n hrep
    obtain ⟨rfl, rfl⟩ := hi.unique hi'
    rcases hcase with ⟨hlogs, hlt, hnext⟩ | ⟨hlogs, -⟩
    · exact ⟨n, lc, rfl, hlogs, hn, hat, hlt, hnext⟩
    · cases act <;> first | exact hlogs.elim | cases hact

/-- **A label that is logged after** has its slot, if the thread does anything later, or is joined, unless that comes
after `exit`. -/
theorem RunInv.slot_after (h : RunInv cfg s) (hi : s.At i t act) (hact : act.isAfter)
    (hstart : ∃ I, s.started = some I ∧ I ≤ i) {u : ℕ} {act' : Act} (hp : s.At p u act') (hip : i < p)
    (hrel : u = t ∨ act' = .joined t) (hfin : ∀ F, s.finished = some F → p < F ∨ act'.isLog) :
    ∃ n lc, s.rep i = some n ∧ act.logsAfter lc ∧ n < s.log.logSz ∧ s.At (s.place n) t (.log lc n) ∧
      i < s.place n ∧ ∀ j u act', s.At j u act' → u = t ∨ act' = .joined t → j ≤ i ∨ s.place n ≤ j := by
  cases hrep : s.rep i with
  | none =>
    exfalso
    have hlast : ¬ s.Last t i := fun hl => absurd (hl p u act' hp hrel) (not_le.mpr hip)
    rcases h.labels.after i t act hi hact hrep with hlab | hoff | ⟨F, hF, -, hlate⟩
    · have hphase := h.phase t
      cases hpc : (s.thr t).pc with
      | done call r lab =>
        rw [hpc] at hlab hphase
        exact hlast (hphase.1 i hlab).2.2.1
      | after call r todo lab =>
        rw [hpc] at hlab hphase
        rcases hphase.2.1 i hlab with ⟨-, hopen⟩ | ⟨-, hne, -⟩
        · exact hlast hopen.2.2.1
        · exact hne hrep
      | _ =>
        rw [hpc] at hlab
        cases hlab
    · obtain ⟨I, hI, hle⟩ := hstart
      exact absurd (hoff I hI) (not_lt.mpr hle)
    · obtain ⟨hle, hno⟩ := hlate p u act' hip hp hrel
      rcases hfin F hF with hlt | hlog
      · exact absurd hle (not_le.mpr hlt)
      · exact absurd (hno.symm.trans hlog) (by simp)
  | some n =>
    obtain ⟨t', act', lc, hi', hn, hat, -, hcase⟩ := h.labels.rep i n hrep
    obtain ⟨rfl, rfl⟩ := hi.unique hi'
    rcases hcase with ⟨hlogs, -⟩ | ⟨hlogs, hlt, hnext⟩
    · cases act <;> first | exact hlogs.elim | cases hact
    · exact ⟨n, lc, rfl, hlogs, hn, hat, hlt, hnext⟩

/-- **The label of a slot** that is reserved after an operation; nothing of the thread lies in between. -/
theorem RunInv.label_behind (h : RunInv cfg s) {n : ℕ} (hrep : s.rep i = some n)
    (hat : s.At (s.place n) t (.log lc n)) (hlc : lc.isBehind) : ∃ act, s.At i t act ∧ act.logsAfter lc ∧
      i < s.place n ∧ ∀ j u act', s.At j u act' → u = t ∨ act' = .joined t → j ≤ i ∨ s.place n ≤ j := by
  obtain ⟨t', act, lc', hi, -, hat', -, hcase⟩ := h.labels.rep i n hrep
  obtain ⟨rfl, heq⟩ := hat'.unique hat
  cases heq
  rcases hcase with ⟨hlogs, -⟩ | ⟨hlogs, hlt, hnext⟩
  · exact absurd hlogs (not_logsBefore hlc)
  · exact ⟨act, hi, hlogs, hlt, hnext⟩

end Slots

end Interface

end Schnauzer
