import Schnauzer.Depgraph.VarMetaData
import Mathlib.Data.Finset.Insert
import Mathlib.Data.Finset.Prod
import Mathlib.Order.Nat

/-!
# The race analysis

`analyze/depgraph/RaceAnalyze`: one pass over the events of a dependence graph that
collects the pairs of accesses that race and the pairs of synchronisations that are
ordered. A pair of `const Event *` is a pair of places in `tot_events_`.
-/

namespace Schnauzer

/-- What the analysis uses of a `DepGraph`. -/
structure DepGraph where
  /-- `tot_events_`. -/
  totEvents : List Event
  /-- `shared_vars_`. -/
  sharedVars : Finset Addr
  /-- `sync_vars_`. -/
  syncVars : Finset Addr

/-- `DepGraph::isSyncVar`. -/
def DepGraph.isSyncVar (g : DepGraph) (a : Addr) : Bool := a ∈ g.syncVars

/-- `RaceAnalyze`. -/
structure RaceAnalyze where
  /-- `race_evt_pairs_`. -/
  raceEvtPairs : Finset (ℕ × ℕ)
  /-- `sync_hb_evt_pairs_`. -/
  syncHbEvtPairs : Finset (ℕ × ℕ)
  /-- `var_meta_`. -/
  varMeta : VarMeta

namespace RaceAnalyze

/-- The state in which `analyze` starts its loop. -/
def init : RaceAnalyze := ⟨∅, ∅, .init⟩

/-- `RaceAnalyze::addRace`. -/
def addRace (ra : RaceAnalyze) (first second : EventPtr) : Except Abort RaceAnalyze :=
  if first.evt.varAddr ≠ second.evt.varAddr then .error .addRace
  else .ok { ra with raceEvtPairs := insert (first.pos, second.pos) ra.raceEvtPairs }

/-- `RaceAnalyze::addSyncHb`. -/
def addSyncHb (ra : RaceAnalyze) (first second : EventPtr) : Except Abort RaceAnalyze :=
  if first.evt.varAddr ≠ second.evt.varAddr then .error .addRace
  else .ok { ra with syncHbEvtPairs := insert (first.pos, second.pos) ra.syncHbEvtPairs }

/-- The loop of `handleVarAccessEvent` over the racing events. -/
def addRaces (ra : RaceAnalyze) (p : EventPtr) : List EventPtr → Except Abort RaceAnalyze
  | [] => .ok ra
  | r :: rs => do
    let ra ← ra.addRace r p
    ra.addRaces p rs

/-- The loop of `handleSyncOpEvent` over the releases. -/
def addSyncHbs (ra : RaceAnalyze) (p : EventPtr) : List EventPtr → Except Abort RaceAnalyze
  | [] => .ok ra
  | r :: rs => do
    let ra ← ra.addSyncHb r p
    ra.addSyncHbs p rs

/-- `RaceAnalyze::handleVarAccessEvent`. -/
def handleVarAccessEvent (ra : RaceAnalyze) (p : EventPtr) : Except Abort RaceAnalyze := do
  let (raceEvts, m) ← ra.varMeta.getRaceEvents p.evt
  let ra ← addRaces { ra with varMeta := m } p raceEvts
  if p.evt.opTy = .ld then
    let m ← ra.varMeta.putRead p
    return { ra with varMeta := m }
  else if p.evt.opTy = .st then
    let m ← ra.varMeta.putWrite p
    return { ra with varMeta := m }
  else return ra

/-- The first half of `RaceAnalyze::handleSyncOpEvent`: the pairs and the releases. -/
def handleSyncRel (ra : RaceAnalyze) (p : EventPtr) : Except Abort RaceAnalyze :=
  if p.evt.isSyncAcqEvent then do
    let syncHbEvts ← ra.varMeta.getSyncHbEvents p.evt
    let ra ← ra.addSyncHbs p syncHbEvts
    return { ra with varMeta := ra.varMeta.clearSyncRel p }
  else if p.evt.isSyncRelEvent then do
    let m ← ra.varMeta.putSyncRel p
    return { ra with varMeta := m }
  else return ra

/-- `RaceAnalyze::handleSyncOpEvent`; updating must be later. -/
def handleSyncOpEvent (ra : RaceAnalyze) (p : EventPtr) : Except Abort RaceAnalyze := do
  let ra ← ra.handleSyncRel p
  let m ← ra.varMeta.updateHB p.evt
  return { ra with varMeta := m }

/-- The body of the loop of `RaceAnalyze::analyze`. -/
def handleEvent (isSyncVar : Addr → Bool) (ra : RaceAnalyze) (p : EventPtr) :
    Except Abort RaceAnalyze :=
  if p.evt.isThreadOpEvent || p.evt.isSyncOpEvent then ra.handleSyncOpEvent p
  else do
    let isVarAccess ← p.evt.isVarAccessEvent
    if isVarAccess && !isSyncVar p.evt.varAddr then ra.handleVarAccessEvent p
    else throw .analyze

/-- The loop of `RaceAnalyze::analyze`, from the event at place `pos` on. -/
def analyzeLoop (isSyncVar : Addr → Bool) : List Event → ℕ → RaceAnalyze → Except Abort RaceAnalyze
  | [], _, ra => .ok ra
  | evt :: evts, pos, ra => do
    let ra ← ra.handleEvent isSyncVar ⟨pos, evt⟩
    analyzeLoop isSyncVar evts (pos + 1) ra

/-- `RaceAnalyze::analyze`. -/
def analyze (g : DepGraph) : Except Abort RaceAnalyze :=
  analyzeLoop g.isSyncVar g.totEvents 0 .init

/-! ### Runs -/

section Runs

variable {isSyncVar : Addr → Bool}

/-- The state in which the loop meets the event at place `k`. -/
def stateAt (isSyncVar : Addr → Bool) (evts : List Event) (k : ℕ) : Except Abort RaceAnalyze :=
  analyzeLoop isSyncVar (evts.take k) 0 .init

@[simp] theorem analyzeLoop_nil (pos : ℕ) (ra : RaceAnalyze) :
    analyzeLoop isSyncVar [] pos ra = .ok ra := rfl

theorem analyzeLoop_append (xs ys : List Event) (pos : ℕ) (ra : RaceAnalyze) :
    analyzeLoop isSyncVar (xs ++ ys) pos ra =
      analyzeLoop isSyncVar xs pos ra >>= analyzeLoop isSyncVar ys (pos + xs.length) := by
  induction xs generalizing pos ra with
  | nil => rfl
  | cons x xs ih =>
    simp only [List.cons_append, analyzeLoop, bind, Except.bind, List.length_cons]
    cases ra.handleEvent isSyncVar ⟨pos, x⟩ with
    | error e => rfl
    | ok ra' =>
      simp only [ih, bind, Except.bind]
      rw [Nat.add_right_comm, Nat.add_assoc]

@[simp] theorem stateAt_zero (evts : List Event) : stateAt isSyncVar evts 0 = .ok .init := by
  simp [stateAt]

/-- The state after one more event. -/
theorem stateAt_succ {evts : List Event} {k : ℕ} {e : Event} (he : evts[k]? = some e) :
    stateAt isSyncVar evts (k + 1) =
      stateAt isSyncVar evts k >>= fun ra => ra.handleEvent isSyncVar ⟨k, e⟩ := by
  obtain ⟨hk, -⟩ := List.getElem?_eq_some_iff.mp he
  unfold stateAt
  rw [List.take_add_one, he, analyzeLoop_append]
  congr 1
  funext ra
  simp only [Option.toList_some, analyzeLoop, Nat.zero_add, List.length_take,
    Nat.min_eq_left hk.le, bind, Except.bind]
  cases ra.handleEvent isSyncVar ⟨k, e⟩ <;> rfl

theorem stateAt_succ_eq_ok {evts : List Event} {k : ℕ} {e : Event} (he : evts[k]? = some e)
    {ra₂ : RaceAnalyze} : stateAt isSyncVar evts (k + 1) = .ok ra₂ ↔
      ∃ ra₁, stateAt isSyncVar evts k = .ok ra₁ ∧ ra₁.handleEvent isSyncVar ⟨k, e⟩ = .ok ra₂ := by
  rw [stateAt_succ he, bind_eq_ok]

/-- **Runs**: what holds at the start and is kept by every event that is accepted holds in
front of every event that the loop reaches, and at its end. -/
theorem run_induction {evts : List Event} {P : ℕ → RaceAnalyze → Prop} (h0 : P 0 .init)
    (hstep : ∀ k e ra₁ ra₂, evts[k]? = some e → stateAt isSyncVar evts k = .ok ra₁ → P k ra₁ →
      ra₁.handleEvent isSyncVar ⟨k, e⟩ = .ok ra₂ → P (k + 1) ra₂) {k : ℕ} {ra : RaceAnalyze}
    (hk : k ≤ evts.length) (h : stateAt isSyncVar evts k = .ok ra) : P k ra := by
  induction k generalizing ra with
  | zero =>
    rw [stateAt_zero] at h
    cases h
    exact h0
  | succ k ih =>
    have he : evts[k]? = some evts[k] := List.getElem?_eq_getElem (by omega)
    obtain ⟨ra₁, hra₁, h⟩ := (stateAt_succ_eq_ok he).mp h
    exact hstep k _ ra₁ ra he hra₁ (ih (by omega) hra₁) h

theorem stateAt_ok_of_le {evts : List Event} {k n : ℕ} {ra : RaceAnalyze} (hkn : k ≤ n)
    (hn : n ≤ evts.length) (h : stateAt isSyncVar evts n = .ok ra) :
    ∃ ra', stateAt isSyncVar evts k = .ok ra' := by
  induction n, hkn using Nat.le_induction generalizing ra with
  | base => exact ⟨ra, h⟩
  | succ n hkn ih =>
    have he : evts[n]? = some evts[n] := List.getElem?_eq_getElem (by omega)
    obtain ⟨ra₁, hra₁, -⟩ := (stateAt_succ_eq_ok he).mp h
    exact ih (by omega) hra₁

theorem stateAt_length (evts : List Event) :
    stateAt isSyncVar evts evts.length = analyzeLoop isSyncVar evts 0 .init := by
  simp [stateAt]

/-- An accepted trace is accepted event by event. -/
theorem stateAt_step {evts : List Event} {ra : RaceAnalyze}
    (h : analyzeLoop isSyncVar evts 0 .init = .ok ra) {k : ℕ} {e : Event} (he : evts[k]? = some e) :
    ∃ ra₁ ra₂, stateAt isSyncVar evts k = .ok ra₁ ∧ ra₁.handleEvent isSyncVar ⟨k, e⟩ = .ok ra₂ ∧
      stateAt isSyncVar evts (k + 1) = .ok ra₂ := by
  rw [← stateAt_length] at h
  obtain ⟨ra₂, hra₂⟩ := stateAt_ok_of_le (List.getElem?_eq_some_iff.mp he).1 le_rfl h
  obtain ⟨ra₁, hra₁, hstep⟩ := (stateAt_succ_eq_ok he).mp hra₂
  exact ⟨ra₁, ra₂, hra₁, hstep, hra₂⟩

/-- A trace that is not accepted stops at an event, the ones before it being accepted. -/
theorem analyzeLoop_error {evts : List Event} {a : Abort}
    (h : analyzeLoop isSyncVar evts 0 .init = .error a) :
    ∃ k e ra, evts[k]? = some e ∧ stateAt isSyncVar evts k = .ok ra ∧
      ra.handleEvent isSyncVar ⟨k, e⟩ = .error a := by
  rw [← stateAt_length] at h
  have hmain : ∀ n ≤ evts.length, stateAt isSyncVar evts n = .error a →
      ∃ k e ra, evts[k]? = some e ∧ stateAt isSyncVar evts k = .ok ra ∧
        ra.handleEvent isSyncVar ⟨k, e⟩ = .error a := by
    intro n
    induction n with
    | zero => simp
    | succ n ih =>
      intro hn herr
      have he : evts[n]? = some evts[n] := List.getElem?_eq_getElem (by omega)
      rw [stateAt_succ he] at herr
      cases hra : stateAt isSyncVar evts n with
      | ok ra =>
        rw [hra] at herr
        exact ⟨n, _, ra, he, hra, herr⟩
      | error b =>
        rw [hra] at herr
        cases herr
        exact ih (by omega) hra
  exact hmain _ le_rfl h

end Runs

end RaceAnalyze

/-- `getTotalRaceEventPair` after `analyze`. -/
def RaceAnalyze.getTotalRaceEventPair (ra : RaceAnalyze) : Finset (ℕ × ℕ) := ra.raceEvtPairs

/-- `getTotalSyncHbEventPair` after `analyze`. -/
def RaceAnalyze.getTotalSyncHbEventPair (ra : RaceAnalyze) : Finset (ℕ × ℕ) := ra.syncHbEvtPairs

end Schnauzer
