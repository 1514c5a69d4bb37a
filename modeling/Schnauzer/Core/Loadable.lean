import Schnauzer.Core.SavedTrace
import Schnauzer.Depgraph.LoadTrace

/-!
# The detector reads what the runtime wrote

The events of the trace file are those that the hooks log. `loadTrace` accepts them unless one is an
access of no bytes, which `Event::getLength` does not accept: a hook logs such an access for a length of 0, or
for a string that is empty.

## What is proved

* `file_loads` — **a file is loaded** if no hook has logged an access of no bytes.
* `memset_not_loaded` — a `memset` of no bytes makes the trace unusable.
-/

namespace Schnauzer

/-- A call logs no access, or one of some bytes, or one to the stack. -/
def LogCall.hasBytes (isOnStack : Addr → Bool) : LogCall → Bool
  | .logArrayAccessEvent _ addr len => isOnStack addr || 0 < len
  | _ => true

namespace Interface

open Logger Runs

variable {cfg : Config} {s s' : State} {a : Action}

/-- The call of the logger that a step runs. -/
def State.calls (s : State) : Action → Option (Call × LogCall)
  | .exec t =>
    match (s.thr t).pc.head with
    | some (call, .log lc, _) => some (call, lc)
    | _ => none
  | _ => none

/-- The step logs no access of no bytes. -/
def HasBytes (s : State) (a : Action) : Prop := ∀ x ∈ s.calls a, x.2.hasBytes x.1.isOnStack

instance (s : State) (a : Action) : Decidable (HasBytes s a) :=
  inferInstanceAs (Decidable (∀ x ∈ s.calls a, _))

theorem Logged.calls {n t : ℕ} {e : Event} {call : Call} {lc : LogCall} (h : Logged cfg s a s' n e t call lc) :
    s.calls a = some (call, lc) := by
  obtain ⟨rfl, -, ⟨next, hpc⟩, -⟩ := h
  simp only [State.calls, hpc]

/-- What the loader asks of an event, wherever it is. -/
structure Acceptable (e : Event) : Prop where
  tid : e.tid < MAX_NR_THREAD
  kind : e.isSyncOpEvent ∨ e.isAccessEvent ∨ e.isThreadOpEvent ∨ e.isFuncCallEvent
  length : e.isAccessEvent → 0 < e.varLen

/-! ### The events of the hooks -/

theorem kind_of_loggedAs {e : Event} {lc : LogCall} {d : ℕ} (h : e.LoggedAs lc d) :
    e.isSyncOpEvent ∨ e.isAccessEvent ∨ e.isThreadOpEvent ∨ e.isFuncCallEvent := by
  unfold Event.LoggedAs at h
  cases hop : e.opTy with
  | call | other =>
    rw [hop] at h
    exact h.elim
  | create | join => exact Or.inr (Or.inr (Or.inl (by simp [Event.isThreadOpEvent, hop])))
  | ld | st => exact Or.inr (Or.inl (by simp [Event.isAccessEvent, hop]))
  | _ => exact Or.inl (by simp [Event.isSyncOpEvent, hop])

section Logged

variable {t n : ℕ} {e : Event} {call : Call} {lc : LogCall}

theorem tid_of_maker {inst : ℕ} {mk : ℕ → Event} (hmk : mk ∈ lc.makers inst t) : (mk n).tid = t := by
  cases lc with
  | startBatch | startBatchFor | endBatch => cases hmk
  | logCondWaitEvent | logCondAwakeEvent =>
    rcases List.mem_cons.mp hmk with rfl | hmk
    · rfl
    · cases List.mem_singleton.mp hmk
      rfl
  | _ =>
    cases List.mem_singleton.mp hmk
    rfl

/-- The length of an access. -/
theorem length_of_maker {isOnStack : Addr → Bool} {inst : ℕ} {mk : ℕ → Event} (hmk : mk ∈ lc.makers inst t)
    (hbytes : lc.hasBytes isOnStack) (hno : lc.onStack isOnStack = false) (hacc : (mk n).isAccessEvent) :
    0 < (mk n).varLen := by
  cases lc with
  | startBatch | startBatchFor | endBatch => cases hmk
  | logCondWaitEvent | logCondAwakeEvent =>
    rcases List.mem_cons.mp hmk with rfl | hmk
    · exact Nat.zero_lt_one
    · cases List.mem_singleton.mp hmk
      exact Nat.zero_lt_one
  | logVarAccessEvent | logSyncOpEvent =>
    cases List.mem_singleton.mp hmk
    exact Nat.zero_lt_one
  | logArrayAccessEvent ty addr len =>
    cases List.mem_singleton.mp hmk
    simp only [LogCall.onStack] at hno
    simpa [LogCall.hasBytes, hno, Event.makeArrayAccessEvent] using hbytes
  | logThreadCreateEvent | logThreadJoinEvent =>
    cases List.mem_singleton.mp hmk
    cases hacc

/-- The call and the event. -/
theorem Logged.loggedAs (h : Logged cfg s a s' n e t call lc) (hshape : ∀ t, (s.thr t).pc.Shape cfg) :
    (∃ d, e.LoggedAs lc d) ∨ e.opTy = .create := by
  obtain ⟨mk, hmk, rfl⟩ := h.maker
  obtain ⟨d, hd⟩ := List.mem_iff_getElem?.mp hmk
  obtain ⟨next, hpc⟩ := h.head
  rcases (hshape t).log hpc with ⟨todo, slot, -, -, ⟨hlogs, -⟩ | ⟨-, hacc | rfl⟩⟩ |
    ⟨r, todo, lab, -, -, ⟨hop, hlogs, -⟩ | ⟨-, ⟨rfl, -⟩ | ⟨rfl, -⟩⟩⟩
  · exact Or.inl ⟨d, (loggedAs_of_before hlogs hd).1⟩
  · exact Or.inl ⟨d, (loggedAs_of_access n d hacc hd hacc).1⟩
  · cases hmk
  · exact Or.inl ⟨d, (loggedAs_of_after hop hlogs hd).1⟩
  · cases List.mem_singleton.mp hmk
    exact Or.inr rfl
  · cases hmk

theorem Logged.kind (h : Logged cfg s a s' n e t call lc) (hshape : ∀ t, (s.thr t).pc.Shape cfg) :
    e.isSyncOpEvent ∨ e.isAccessEvent ∨ e.isThreadOpEvent ∨ e.isFuncCallEvent := by
  rcases h.loggedAs hshape with ⟨d, hd⟩ | hop
  · exact kind_of_loggedAs hd
  · exact Or.inr (Or.inr (Or.inl (by simp [Event.isThreadOpEvent, hop])))

/-- **A new event** is acceptable. -/
theorem Logged.acceptable (h : Logged cfg s a s' n e t call lc) (hinv : LogInv s)
    (hshape : ∀ t, (s.thr t).pc.Shape cfg) (hbytes : HasBytes s a) : Acceptable e := by
  obtain ⟨next, hpc⟩ := h.head
  obtain ⟨mk, hmk, rfl⟩ := h.maker
  refine ⟨?_, h.kind hshape, length_of_maker hmk (hbytes _ h.calls) h.onStack⟩
  rw [tid_of_maker hmk]
  exact (hinv.start.lt_of_busy (Pc.busy_of_head hpc)).trans_le hinv.nrThread

end Logged

/-! ### The file -/

/-- **The events of a run.** -/
theorem acceptable_of_reachable {P : State → Action → Prop} (hen : cfg.log.enable = true)
    (hP : ∀ s a, P s a → HasBytes s a) (h : ReachableBy cfg P s) {n : ℕ} {e : Event} (he : s.Evt n e) :
    Acceptable e := by
  have hinv : (s.log.aborted = none → LogInv s) ∧ (∀ t, (s.thr t).pc.Shape cfg) ∧
      ∀ n e, s.Evt n e → Acceptable e := by
    refine h.invariant (I := fun s => (s.log.aborted = none → LogInv s) ∧ (∀ t, (s.thr t).pc.Shape cfg) ∧
      ∀ n e, s.Evt n e → Acceptable e) ⟨fun _ => .init, RunInv.init.shape, ?_⟩ ?_
    · rintro n e (h | ⟨t, h⟩)
      · cases h
      · cases h
    rintro s a s' ⟨hlog, hshape, hevt⟩ ha hs
    obtain ⟨hab, hstep⟩ := step_cases hs
    refine ⟨fun hab' => ((hlog hab).step hen hstep).resolve_right fun hfull => ?_, shape_of_step hstep hshape,
      fun n e he => ?_⟩
    · rw [hfull.1] at hab'
      cases hab'
    · rcases evt_of_step hstep he with he | ⟨t, call, lc, hnew⟩
      · exact hevt n e he
      · exact hnew.acceptable (hlog hab) hshape (hP s a ha)
  exact hinv.2.2 n e he

/-- **The file is loaded**, and each of its events accepted, in every state of a run in which `flush` visits no
slot that is held and no access of no bytes is logged. -/
theorem file_loads (hen : cfg.log.enable = true)
    (h : ReachableBy cfg (fun s a => Clean s a ∧ HasBytes s a) s) :
    (∃ g, loadTrace s.file = .ok g) ∧ ∀ n e, s.file[n]? = some e → Loadable n e := by
  obtain ⟨hfile, -⟩ := fileInv_of_reachable hen (h.mono fun _ _ h => h.1)
  have hacc : ∀ n e, s.file[n]? = some e → Acceptable e := fun n e he =>
    acceptable_of_reachable hen (fun _ _ h => h.2) h (Or.inl (hfile.file n e he).1)
  have hload : ∀ n e, s.file[n]? = some e → Loadable n e := fun n e he =>
    ⟨(hfile.file n e he).2, (hacc n e he).kind, (hacc n e he).length⟩
  refine ⟨(loadTrace_ok_iff fun e he => ?_).mpr hload, hload⟩
  obtain ⟨n, hn⟩ := List.mem_iff_getElem?.mp he
  exact (hacc n e hn).tid.trans (by decide)

/-- A thread is created, four bytes are set, and the program exits. -/
theorem file_loads_memset : ∃ s : State, s.file.length = 2 ∧ (∃ g, loadTrace s.file = .ok g) ∧
    ∀ n e, s.file[n]? = some e → Loadable n e := by
  have hrun : ((exec (restrict (step traced) fun s a => Clean s a ∧ HasBytes s a) init
      [.call 0 (plainCall .create), .exec 0, .exec 0, .ret 0, .real 0 .ok, .second 0, .exec 0, .exec 0,
        .store 0, .exec 0, .ret 0, .call 0 (plainCall (.memset 16 4)), .exec 0, .store 0, .ret 0, .real 0 .ok,
        .second 0, .ret 0, .exit 0, .flush 0, .flush 0, .flush 0]).map fun s => s.file.length) = some 2 := by
    decide +kernel
  obtain ⟨s, hs, hlen⟩ := Option.map_eq_some_iff.mp hrun
  exact ⟨s, hlen, file_loads rfl (Reach.of_exec hs)⟩

/-- **A `memset` of no bytes** makes the trace unusable. -/
theorem memset_not_loaded : ∃ s : State, ReachableBy traced Clean s ∧ (s.thr 0).pc.isEnded ∧
    s.file.length = s.log.logSz ∧ ¬ ∃ g, loadTrace s.file = .ok g := by
  have hrun : ((exec (restrict (step traced) Clean) init
      [.call 0 (plainCall .create), .exec 0, .exec 0, .ret 0, .real 0 .ok, .second 0, .exec 0, .exec 0,
        .store 0, .exec 0, .ret 0, .call 0 (plainCall (.memset 16 0)), .exec 0, .store 0, .ret 0, .real 0 .ok,
        .second 0, .ret 0, .exit 0, .flush 0, .flush 0, .flush 0]).map fun s =>
          ((s.thr 0).pc.isEnded, s.file, s.log.logSz)) =
      some (true, [.makeThreadEvent 0 0 0 .create 1, .makeArrayAccessEvent 0 1 0 .st 16 0], 2) := by
    decide +kernel
  obtain ⟨s, hs, heq⟩ := Option.map_eq_some_iff.mp hrun
  obtain ⟨hend, hpair⟩ := Prod.mk.inj heq
  obtain ⟨hfile, hsz⟩ := Prod.mk.inj hpair
  refine ⟨s, Reach.of_exec hs, hend, ?_, ?_⟩
  · rw [hfile, hsz]
    rfl
  · rw [hfile, loadTrace_ok_iff (by decide)]
    intro hload
    exact absurd ((hload 1 _ rfl).length rfl) (lt_irrefl 0)

end Interface

end Schnauzer
