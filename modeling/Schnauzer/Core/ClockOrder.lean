import Schnauzer.Core.Loadable
import Schnauzer.Depgraph.ExpandedTrace

/-!
# The clocks and the history

An access of the trace stands in the history where its slot was reserved. This relates the order that the detector's
clocks give to two accesses to the order of the file, for the file of any run.

## What is proved

* `fileInv_of_running` — the file of a run that no `assert` has stopped.
* `RunInv.file_access` — where an access of the file stands in the history.
* `clocksOrder_iff_file` — the clocks order two accesses of different threads as the file does.
-/

namespace Schnauzer

namespace Interface

open CausalOrder Logger Runs

variable {cfg : Config} {s s' : State} {a : Action}

/-- An access is logged at place `k`. -/
def State.AccessAt (s : State) (k : ℕ) : Prop := ∃ t lc f, s.At k t (.log lc f) ∧ lc.isAccess

/-- An access that is logged already. -/
theorem State.AccessAt.of_lt (hrec : Recorded s a s') {i : ℕ} (h : s'.AccessAt i) (hi : i < s.hist.length) :
    s.AccessAt i := by
  obtain ⟨t, lc, f, hat, hlc⟩ := h
  exact ⟨t, lc, f, (hrec.at hat).resolve_right fun hnew => absurd hnew.1 hi.ne, hlc⟩

/-! ### The file -/

/-- A step that stops no program visits no slot that is held. -/
theorem LogInv.clean (h : LogInv s) (hstep : Stepped cfg s a s') (hab : s'.log.aborted = none) : Clean s a := by
  by_contra hdirty
  cases hstep with
  | @flush t i hpc =>
    rw [flushRound_dirty h hpc hdirty] at hab
    cases hab
  | _ => exact hdirty fun i hi => by cases hi

/-- **The file** of a run that no `assert` has stopped, with what else the run keeps. -/
theorem fileInv_of_running {P : State → Action → Prop} {I : State → Prop} (hen : cfg.log.enable = true)
    (h : ReachableBy cfg P s) (hab : s.log.aborted = none) (hI : I init)
    (hkeep : ∀ s a s', RunInv cfg s → I s → P s a → Stepped cfg s a s' → s'.log.aborted = none → I s') :
    RunInv cfg s ∧ FileInv s ∧ I s :=
  runInv_of_reachable (I := fun s => FileInv s ∧ I s) hen h hab ⟨.init, hI⟩
    fun s a s' hinv hi hP hstep hab' =>
      ⟨hi.1.step hinv.log hen hstep (hinv.log.clean hstep hab'), hkeep s a s' hinv hi.2 hP hstep hab'⟩

/-- No function call is in the file. -/
theorem not_call_of_file (hinv : RunInv cfg s) (hfile : FileInv s) : ∀ e ∈ s.file, e.opTy ≠ .call := by
  intro e he hop
  obtain ⟨n, hn⟩ := List.mem_iff_getElem?.mp he
  obtain ⟨-, lc, f, -, -, hlog⟩ := hinv.label_of_event (hfile.file n e hn).1
  rw [Event.LoggedAs, hop] at hlog
  exact hlog

/-- An access is logged by a call for accesses. -/
theorem isAccess_of_loggedAs {e : Event} {lc : LogCall} {d : ℕ} (hacc : e.isAccessEvent) (h : e.LoggedAs lc d) :
    lc.isAccess := by
  unfold Event.LoggedAs at h
  rcases Event.isAccessEvent_iff.mp hacc with hop | hop
  · rwa [hop] at h
  · rwa [hop] at h

/-- **The place of an access** of the file. -/
theorem RunInv.file_access (hinv : RunInv cfg s) (hfile : FileInv s) {n : ℕ} {e : Event} (he : s.file[n]? = some e)
    (hacc : e.isAccessEvent) :
    n < s.log.logSz ∧ ∃ lc f, s.At (s.place n) e.tid (.log lc f) ∧ lc.isAccess := by
  obtain ⟨hn, lc, f, -, hat, hlog⟩ := hinv.label_of_event (hfile.file n e he).1
  exact ⟨hn, lc, f, hat, isAccess_of_loggedAs hacc hlog⟩

/-! ### Runs that an `assert` has stopped -/

/-- A step leaves an order among the places of the history as it is. -/
theorem Recorded.beforeIn_iff {reads writes : Label → Set RealNode} (hrec : Recorded s a s') {i j : ℕ}
    (hj : j < s.hist.length) : BeforeIn reads writes s'.hist i j ↔ BeforeIn reads writes s.hist i j := by
  cases hrec with
  | same hhist => rw [hhist]
  | log _ _ hhist =>
    rw [hhist]
    exact beforeIn_append hj
  | act _ _ _ hhist =>
    rw [hhist]
    exact beforeIn_append hj

/-- **The file of any run**, and the order of its slots, are those of a run that no `assert` has stopped. -/
theorem exists_running {P : State → Action → Prop} {I : State → Prop} (hen : cfg.log.enable = true)
    (h : ReachableBy cfg P s) (hI : I init)
    (hkeep : ∀ s a s', RunInv cfg s → I s → P s a → Stepped cfg s a s' → s'.log.aborted = none → I s') :
    ∃ s₀, ReachableBy cfg P s₀ ∧ RunInv cfg s₀ ∧ FileInv s₀ ∧ I s₀ ∧ s₀.file = s.file ∧
      ∀ (reads writes : Label → Set RealNode) (n n' : ℕ), n < s₀.log.logSz → n' < s₀.log.logSz →
        (BeforeIn reads writes s.hist (s.place n) (s.place n') ↔
          BeforeIn reads writes s₀.hist (s₀.place n) (s₀.place n')) := by
  obtain ⟨s₀, h₀, hab, hfile, hlast⟩ := exists_file h
  obtain ⟨hinv, hf, hi⟩ := fileInv_of_running hen h₀ hab hI hkeep
  refine ⟨s₀, h₀, hinv, hf, hi, hfile, fun reads writes n n' hn hn' => ?_⟩
  rcases hlast with rfl | ⟨a, hrec⟩
  · rfl
  · rw [hrec.place_eq hn, hrec.place_eq hn', hrec.beforeIn_iff (hinv.places.place_lt hn')]

/-! ### Two accesses of the graph -/

section Graph

variable {g : DepGraph} {ra : RaceAnalyze} {i j : ℕ} {x y : Event}

/-- **The clocks** order two accesses of different threads as the file does. -/
theorem clocksOrder_iff_file (hinv : RunInv cfg s) (hfile : FileInv s) (hload : loadTrace s.file = .ok g)
    (hra : RaceAnalyze.analyze g = .ok ra) (hx : g.totEvents[i]? = some x) (hy : g.totEvents[j]? = some y)
    (hxa : x.isAccessEvent) (hya : y.isAccessEvent) (hne : x.tid ≠ y.tid) :
    g.ClocksOrder i j ↔ HappensBefore s.file x.timestamp y.timestamp := by
  exact clocksOrder_iff hload (not_call_of_file hinv hfile) hra hx hy hxa hya hne

end Graph

end Interface

end Schnauzer
