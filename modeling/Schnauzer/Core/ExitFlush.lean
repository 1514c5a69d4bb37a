import Schnauzer.Core.InterfaceLog

/-!
# The flush at exit

`_before_exit` sets the second flag of `Control` and flushes the log, while the other threads go on. A thread
that is between the two hooks of `pthread_create_wrapper`, or in the middle of a logging function, has
reserved slots that it has not filled; `flush` finds no event there.

## What is proved

* `flush_saves` — as long as `flush` visits no slot that a thread has reserved and not filled, its `assert`
  does not fail and the file is the log; the first visit to such a slot stops the program.
* `create_loses_trace` — a run with a thread in `pthread_create`.
-/

namespace Schnauzer.Interface

open Logger Runs

variable {cfg : Config} {s s' : State} {a : Action}

/-- The slot that a step of `flush` visits. -/
def State.visits (s : State) : Action → Option ℕ
  | .flush t =>
    match (s.thr t).pc with
    | .flushing i => some i
    | _ => none
  | _ => none

instance (l : LogLocal) (n : ℕ) : Decidable (n ∈ l.held) := inferInstanceAs (Decidable (_ ∨ _ ∧ _ ∧ _))

/-- No thread has reserved the slot that `flush` visits without having stored its event. -/
def Clean (s : State) (a : Action) : Prop :=
  ∀ i ∈ s.visits a, ∀ u < s.nrThread, i ∉ (s.thr u).log.held

instance (s : State) (a : Action) : Decidable (Clean s a) :=
  inferInstanceAs (Decidable (∀ i ∈ s.visits a, ∀ u < s.nrThread, i ∉ (s.thr u).log.held))

theorem visits_flush {t i : ℕ} (hpc : (s.thr t).pc = .flushing i) : s.visits (.flush t) = some i := by
  simp only [State.visits, hpc]

/-! ### A round -/

/-- At a slot that nobody holds there is an event. -/
theorem LogInv.event_of_clean (h : LogInv s) {t i : ℕ} (hpc : (s.thr t).pc = .flushing i)
    (hclean : Clean s (.flush t)) (hi : i < s.log.logSz) :
    ∃ e, s.log.events i = some e ∧ e.timestamp = i ∧ e.Storable := by
  rcases h.slots.part.cover i hi with ⟨e, he⟩ | ⟨u, hu⟩
  · exact ⟨e, he, h.slots.stamp i e he, (h.stored i e he).2⟩
  · exact absurd hu (hclean i (visits_flush hpc) u (h.lt_of_held hu))

theorem flushRound_clean (h : LogInv s) {t i : ℕ} (hpc : (s.thr t).pc = .flushing i)
    (hclean : Clean s (.flush t)) (hi : i < s.log.logSz) : ∃ e, s.log.events i = some e ∧ e.timestamp = i ∧
      flushRound s t i = { s.setPc t (.flushing (i + 1)) with file := s.file ++ [e] } := by
  obtain ⟨e, he, hts, hst⟩ := h.event_of_clean hpc hclean hi
  refine ⟨e, he, hts, ?_⟩
  unfold flushRound
  simp only [if_pos hi, he, hts, ne_eq, not_true_eq_false, if_false, if_pos hst]

theorem flushRound_end {t i : ℕ} (hi : ¬ i < s.log.logSz) : flushRound s t i = s.setPc t .ended := by
  unfold flushRound
  rw [if_neg hi]

/-- **A slot that is held** stops the program. -/
theorem flushRound_dirty (h : LogInv s) {t i : ℕ} (hpc : (s.thr t).pc = .flushing i)
    (hdirty : ¬ Clean s (.flush t)) : flushRound s t i = { s with log := abort .flush s.log } := by
  obtain ⟨u, hu⟩ : ∃ u, i ∈ (s.thr u).log.held := by
    by_contra hno
    refine hdirty fun j hj u _ hheld => hno ⟨u, ?_⟩
    rw [visits_flush hpc] at hj
    cases hj
    exact hheld
  have hev : s.log.events i = none := by
    cases hev : s.log.events i with
    | none => rfl
    | some e => exact absurd ⟨e, hev⟩ (h.slots.part.not_filled u i hu)
  unfold flushRound
  simp only [if_pos (h.slots.part.held_lt u i hu), hev]

/-! ### The file -/

/-- What a step that is none of `flush` and not the first `exit` leaves alone. -/
theorem file_of_step (hstep : Stepped cfg s a s') :
    (s'.file = s.file ∧ s'.hasCleanUp = s.hasCleanUp ∧
        ∀ u i, (s'.thr u).pc = .flushing i → (s.thr u).pc = .flushing i) ∨
      (∃ t, a = .exit t ∧ s.hasCleanUp = false ∧ s' = beforeExit cfg s t) ∨
      ∃ t i, a = .flush t ∧ (s.thr t).pc = .flushing i ∧ s' = flushRound s t i := by
  have hother : ∀ u i, u ≠ a.thread → (s'.thr u).pc = .flushing i → (s.thr u).pc = .flushing i := by
    intro u i hu h
    rcases thr_of_ne hstep hu with heq | ⟨-, -, -, heq⟩ | ⟨call, depth, j, -, heq⟩
    · rwa [heq] at h
    · rw [heq] at h
      cases h
    · rw [heq] at h
      cases h
  have hall : (∀ i, (s'.thr a.thread).pc = .flushing i → (s.thr a.thread).pc = .flushing i) →
      ∀ u i, (s'.thr u).pc = .flushing i → (s.thr u).pc = .flushing i := by
    intro hown u i h
    by_cases hu : u = a.thread
    · rw [hu] at h ⊢
      exact hown i h
    · exact hother u i hu h
  have hnext : ∀ {t : ℕ} {call : Call} {stmt : Stmt} {next : Pc} {i : ℕ},
      (s.thr t).pc.head = some (call, stmt, next) → next ≠ .flushing i := by
    intro t call stmt next i hpc heq
    rw [heq] at hpc
    have hcall := (Pc.call_of_head hpc).2.1
    cases hcall
  cases hstep with
  | @call t call hpc hall' =>
    refine Or.inl ⟨?_, ?_, hall fun i h => ?_⟩
    · obtain ⟨started, pc, heq⟩ := enter_eq cfg s t call
      rw [heq]
      rfl
    · obtain ⟨started, pc, heq⟩ := enter_eq cfg s t call
      rw [heq]
      rfl
    · simp only [Action.thread] at h
      rcases enter_pc cfg s t call with ⟨hpc', -⟩ | ⟨hpc', -⟩
      · rw [hpc'] at h
        cases h
      · rw [hpc'] at h
        cases h
  | @skip t call c next hpend hpc =>
    refine Or.inl ⟨rfl, rfl, hall fun i h => ?_⟩
    simp only [Action.thread, State.setPc_self] at h
    exact absurd h (hnext hpc)
  | @log t call lc next log l hpend hpc hlog hsz =>
    refine Or.inl ⟨rfl, rfl, hall fun i h => ?_⟩
    simp only [Action.thread, State.setPc_self] at h
    exact absurd h (hnext hpc)
  | @reserve t call lc next log l hpend hpc hlog hsz =>
    refine Or.inl ⟨rfl, rfl, hall fun i h => ?_⟩
    simp only [Action.thread, State.setPc_self] at h
    cases hn : next with
    | flushing j => exact absurd hn (hnext hpc)
    | _ =>
      rw [hn] at h
      cases h
  | @store t log l hlog =>
    refine Or.inl ⟨rfl, rfl, hall fun i h => ?_⟩
    simpa [Action.thread, State.setLog] using h
  | @second t call r lab hpc =>
    refine Or.inl ⟨rfl, rfl, hall fun i h => ?_⟩
    simp only [Action.thread, State.setPc_self] at h
    split_ifs at h
  | @exit t hpc hc => exact Or.inr (Or.inl ⟨t, rfl, hc, rfl⟩)
  | @flush t i hpc => exact Or.inr (Or.inr ⟨t, i, rfl, hpc, rfl⟩)
  | _ =>
    refine Or.inl ⟨rfl, rfl, hall fun i h => ?_⟩
    simp only [Action.thread, State.setPc_self] at h
    cases h

/-- The file, while `flush` runs. -/
structure FileInv (s : State) : Prop where
  aborted : s.log.aborted ≠ some .flush ∧ s.log.aborted ≠ some .storeEvent
  file : ∀ n e, s.file[n]? = some e → s.log.events n = some e ∧ e.timestamp = n
  round : ∀ t i, (s.thr t).pc = .flushing i → s.file.length = i ∧ i ≤ s.log.logSz
  /-- `_before_exit` runs once. -/
  fresh : s.hasCleanUp = false → s.file = [] ∧ ∀ t i, (s.thr t).pc ≠ .flushing i
  unique : ∀ t u i j, (s.thr t).pc = .flushing i → (s.thr u).pc = .flushing j → t = u

theorem FileInv.init : FileInv init where
  aborted := by decide
  file := fun n e h => by cases h
  round := fun t i h => by
    by_cases ht : t = 0
    · simp [Interface.init, ht] at h
    · simp [Interface.init, ht] at h
  fresh := fun _ => ⟨rfl, fun t i h => by
    by_cases ht : t = 0
    · simp [Interface.init, ht] at h
    · simp [Interface.init, ht] at h⟩
  unique := fun t u i j h => by
    by_cases ht : t = 0
    · simp [Interface.init, ht] at h
    · simp [Interface.init, ht] at h

/-- **One round.** -/
theorem FileInv.flush {t i : ℕ} (h : FileInv s) (hlog : LogInv s) (hpc : (s.thr t).pc = .flushing i)
    (hclean : Clean s (.flush t)) : FileInv (flushRound s t i) := by
  obtain ⟨hlen, hle⟩ := h.round t i hpc
  have hno : ∀ u, u ≠ t → ∀ j, (s.thr u).pc ≠ .flushing j := fun u hu j hj => hu (h.unique u t j i hj hpc)
  have hcu : s.hasCleanUp = true := by
    by_contra hc
    exact (h.fresh (Bool.eq_false_of_not_eq_true hc)).2 t i hpc
  by_cases hi : i < s.log.logSz
  · obtain ⟨e, he, hts, heq⟩ := flushRound_clean hlog hpc hclean hi
    have hthr : ∀ u j, (((s.setPc t (.flushing (i + 1))).thr u).pc = .flushing j) → u = t ∧ j = i + 1 := by
      intro u j hu
      by_cases hut : u = t
      · subst hut
        rw [State.setPc_self] at hu
        cases hu
        exact ⟨rfl, rfl⟩
      · rw [State.setPc_of_ne _ _ hut] at hu
        exact absurd hu (hno u hut j)
    rw [heq]
    refine ⟨h.aborted, fun n e' he' => ?_, fun u j hu => ?_, fun hc => ?_, fun u v j k hu hv => ?_⟩
    · rcases Nat.lt_trichotomy n s.file.length with hn | rfl | hn
      · exact h.file n e' (by rwa [List.getElem?_append_left hn] at he')
      · obtain rfl : e = e' := by simpa using he'
        rw [hlen]
        exact ⟨he, hts⟩
      · have := (List.getElem?_eq_some_iff.mp he').1
        simp only [List.length_append, List.length_singleton] at this
        omega
    · obtain ⟨rfl, rfl⟩ := hthr u j hu
      refine ⟨?_, hi⟩
      simp [hlen]
    · exact absurd (hc.symm.trans hcu) (by simp)
    · exact (hthr u j hu).1.trans (hthr v k hv).1.symm
  · rw [flushRound_end hi]
    have hthr : ∀ u j, ((s.setPc t .ended).thr u).pc ≠ .flushing j := by
      intro u j hu
      by_cases hut : u = t
      · subst hut
        rw [State.setPc_self] at hu
        cases hu
      · rw [State.setPc_of_ne _ _ hut] at hu
        exact hno u hut j hu
    exact ⟨h.aborted, h.file, fun u j hu => absurd hu (hthr u j), fun hc => absurd (hc.symm.trans hcu) (by simp),
      fun u v j k hu => absurd hu (hthr u j)⟩

/-- **One step.** -/
theorem FileInv.step (h : FileInv s) (hlog : LogInv s) (hen : cfg.log.enable = true)
    (hstep : Stepped cfg s a s') (hclean : Clean s a) : FileInv s' := by
  rcases file_of_step hstep with ⟨hfile, hcu, hpc⟩ | ⟨t, rfl, hcu, rfl⟩ | ⟨t, i, rfl, hpc, rfl⟩
  · have hsz := logSz_mono hstep
    refine ⟨?_, fun n e he => (h.file n e (hfile ▸ he)).imp_left (hlog.events_mono hstep), fun t i ht => ?_, fun hc => ?_,
      fun t u i j ht hu => h.unique t u i j (hpc t i ht) (hpc u j hu)⟩
    · rcases hlog.aborted_of_step hen hstep with heq | hfull | ⟨t, i, rfl, hpc', rfl⟩
      · rw [heq]
        exact h.aborted
      · rw [hfull.1]
        decide
      · exact (h.flush hlog hpc' hclean).aborted
    · obtain ⟨hlen, hle⟩ := h.round t i (hpc t i ht)
      exact ⟨hfile ▸ hlen, hle.trans hsz⟩
    · obtain ⟨hnil, hno⟩ := h.fresh (hcu ▸ hc)
      exact ⟨hfile.trans hnil, fun t i ht => hno t i (hpc t i ht)⟩
  · obtain ⟨hnil, hno⟩ := h.fresh hcu
    have hthr : ∀ u j, ((beforeExit cfg s t).thr u).pc = .flushing j → u = t ∧ j = 0 := by
      intro u j hu
      by_cases hut : u = t
      · subst hut
        unfold beforeExit at hu
        rw [State.setPc_self] at hu
        split_ifs at hu
        cases hu
        exact ⟨rfl, rfl⟩
      · unfold beforeExit at hu
        rw [State.setPc_of_ne _ _ hut] at hu
        exact absurd hu (hno u j)
    refine ⟨h.aborted, h.file, fun u j hu => ?_, fun hc => ?_, fun u v j k hu hv => ?_⟩
    · obtain ⟨rfl, rfl⟩ := hthr u j hu
      exact ⟨congrArg List.length hnil, Nat.zero_le _⟩
    · cases hc
    · exact (hthr u j hu).1.trans (hthr v k hv).1.symm
  · exact h.flush hlog hpc hclean

/-- The trace at one state of a run. -/
structure Saved (cfg : Config) (s : State) : Prop where
  /-- Neither `assert(false)` of `flush` nor that of `Event::storeEvent` has been reached. -/
  aborted : s.log.aborted ≠ some .flush ∧ s.log.aborted ≠ some .storeEvent
  /-- What `flush` has visited is in the file. -/
  visited : ∀ t i, (s.thr t).pc = .flushing i → s.file.length = i ∧ i ≤ s.log.logSz
  /-- The file has the events of the log, each at its timestamp. -/
  file : ∀ n e, s.file[n]? = some e → s.log.events n = some e ∧ e.timestamp = n
  /-- When the loop of `flush` ends, all of them. -/
  complete : ∀ t s', step cfg s (.flush t) = some s' → (s'.thr t).pc = .ended →
    s'.file.length = s'.log.logSz
  /-- The slot that is visited next has its event, or the program stops. -/
  next : ∀ a s', step cfg s a = some s' →
    (Clean s a → ∀ i ∈ s.visits a, i < s.log.logSz → ∃ e, s.log.events i = some e ∧ e.timestamp = i) ∧
      (s'.log.aborted = some .flush ↔ ¬ Clean s a)

theorem fileInv_of_reachable (hen : cfg.log.enable = true) (h : ReachableBy cfg Clean s) :
    FileInv s ∧ (s.log.aborted = none → LogInv s) := by
  refine h.invariant (I := fun s => FileInv s ∧ (s.log.aborted = none → LogInv s)) ⟨.init, fun _ => .init⟩ ?_
  rintro s a s' ⟨hfile, hlog⟩ hclean hs
  obtain ⟨hab, hstep⟩ := step_cases hs
  refine ⟨hfile.step (hlog hab) hen hstep hclean, fun hab' => ?_⟩
  refine ((hlog hab).step hen hstep).resolve_right fun hfull => ?_
  rw [hfull.1] at hab'
  cases hab'

end Schnauzer.Interface
