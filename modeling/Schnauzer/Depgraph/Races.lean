import Schnauzer.Depgraph.AccessSets
import Mathlib.Data.Nat.Find

/-!
# The races that the analysis reports

## What is proved

* `clock_le_iff_happensBefore` — the clock stored with an access is below the clock of the thread of
  a later access exactly when the one happens before the other, so that `isConcurrentWith`
  answers that they are not ordered. `createJoin_needed` shows that the edges from the `CREATE`
  of a thread to its `JOIN` cannot be left out of the order.
* `mem_raceEventPair_iff` — the pairs reported are the conflicting accesses that are not ordered and
  have no store to the address in between.
* `exists_raceEventPair` — an address with an unordered conflict is reported, although a store
  makes the analysis forget the accesses before it.
-/

namespace Schnauzer

open RaceAnalyze Relation

/-! ### Clocks -/

section Clocks

/-- The clock stored with the access at place `k`: that of the operation in the sets of its
address once the access is handled. -/
def storedClockAt (g : DepGraph) (k : ℕ) : Option VectorClock :=
  match stateAt g.isSyncVar g.totEvents (k + 1), g.totEvents[k]? with
  | .ok ra, some e =>
    ((ra.varMeta.varRsetTable e.varAddr ++ ra.varMeta.varWsetTable e.varAddr).find?
      fun op => op.getEvent.pos = k).map (·.getVC)
  | _, _ => none

/-- The clock of the thread of the event at place `k`, when that event is handled. -/
def threadClockAt (g : DepGraph) (k : ℕ) : Option VectorClock :=
  match stateAt g.isSyncVar g.totEvents k, g.totEvents[k]? with
  | .ok ra, some e =>
    match ra.varMeta.getThreadVC e.tid with
    | .ok (t, m) => some (m.threadVc t)
    | .error _ => none
  | _, _ => none

variable {g : DepGraph} {ra : RaceAnalyze} {k : ℕ} {e : Event}

/-- Its thread's clock is the stamp of an access. -/
theorem threadClockAt_eq (h : analyze g = .ok ra) (he : g.totEvents[k]? = some e)
    (hacc : e.isAccessEvent) : threadClockAt g k = some (stampAt g.isSyncVar g.totEvents k) := by
  obtain ⟨ra₁, ra₂, hra₁, hstep, -⟩ := stateAt_step h he
  have ht := (accepted_of_ok hstep).1
  simp only [threadClockAt, hra₁, he, ra₁.varMeta.getThreadVC_ok (t := ⟨_, ht⟩) rfl, stampAt_eq hra₁ he]
  rw [← VarMeta.stamp_initThreadVC _ (t := ⟨_, ht⟩) rfl]
  refine congrArg some (VarMeta.stamp_of_else (VarMeta.initThreadVC_isInit _ _) rfl ?_ ?_).symm <;>
    rcases Event.isAccessEvent_iff.mp hacc with h | h <;> simp [Event.isSyncAcqEvent, h]

/-- And so is the clock stored with it. -/
theorem storedClockAt_eq (h : analyze g = .ok ra) (he : g.totEvents[k]? = some e)
    (hacc : e.isAccessEvent) : storedClockAt g k = some (stampAt g.isSyncVar g.totEvents k) := by
  obtain ⟨ra₁, ra₂, -, -, hra₂⟩ := stateAt_step h he
  obtain ⟨hsets, -⟩ := accessInv_stateAt (List.getElem?_eq_some_iff.mp he).1 hra₂
  have hlive : ∀ ty, e.opTy = ty → Live g.totEvents ty e.varAddr (k + 1) k := fun ty hty =>
    (live_succ he).mpr (Or.inl ⟨rfl, hty, rfl⟩)
  simp only [storedClockAt, hra₂, he]
  cases hfind : (ra₂.varMeta.varRsetTable e.varAddr ++ ra₂.varMeta.varWsetTable e.varAddr).find?
      fun op => op.getEvent.pos = k with
  | some op =>
    have hmem := List.mem_of_find?_eq_some hfind
    have hpos : op.getEvent.pos = k := by simpa using List.find?_some hfind
    have hvc : op.getVC = stampAt g.isSyncVar g.totEvents k := by
      rw [← hpos]
      rcases List.mem_append.mp hmem with hmem | hmem
      · exact ((hsets.rset _).sound op hmem).2.2
      · exact ((hsets.wset _).sound op hmem).2.2
    exact congrArg some hvc
  | none =>
    -- the access was put into one of the two sets
    exfalso
    rw [List.find?_eq_none] at hfind
    rcases Event.isAccessEvent_iff.mp hacc with hop | hop
    · obtain ⟨op, hmem, hpos⟩ := (hsets.rset _).complete k (hlive _ hop)
      exact hfind op (List.mem_append_left _ hmem) (by simpa using hpos)
    · obtain ⟨op, hmem, hpos⟩ := (hsets.wset _).complete k (hlive _ hop)
      exact hfind op (List.mem_append_right _ hmem) (by simpa using hpos)

/-- **Clocks say what happens before what**: of two accesses, the clock stored with the first is
below the clock of the second's thread exactly when the first happens before the second. -/
theorem clock_le_iff_happensBefore (hacc : ∀ e ∈ g.totEvents, Accepted g.isSyncVar e) {i j : ℕ}
    {e f : Event} (hij : i < j) (he : g.totEvents[i]? = some e) (hf : g.totEvents[j]? = some f)
    (hea : e.isAccessEvent) (hfa : f.isAccessEvent) :
    ∃ vc vc', storedClockAt g i = some vc ∧ threadClockAt g j = some vc' ∧
      (vc.le vc' ↔
        TransGen (fun i j => Edge g.totEvents i j ∨ CreateJoin g.totEvents i j) i j) ∧
      (e.tid ≠ f.tid → ¬ vc'.le vc) ∧
      (vc.isConcurrentWith vc' ↔
        ¬ TransGen (fun i j => Edge g.totEvents i j ∨ CreateJoin g.totEvents i j) i j) := by
  obtain ⟨ra, h⟩ := analyzeLoop_ok_iff.mpr hacc
  refine ⟨_, _, storedClockAt_eq h he hea, threadClockAt_eq h hf hfa, ?_, not_stamp_le h hij he hf, ?_⟩
  · rw [stamp_le_iff h hij hf, happensBefore_iff]
  · rw [stamp_concurrent_iff h hij he hf, happensBefore_iff]

/-- Thread 0 stores, creates thread 2 and ends; thread 1 joins thread 2, which did nothing, and
loads. -/
def createJoinTrace : List Event :=
  [.makeVarAccessEvent 1 0 0 .st 8, .makeThreadEvent 2 1 0 .create 2,
    .makeThreadEvent 3 2 1 .join 2, .makeVarAccessEvent 4 3 1 .ld 8]

/-- The store and the load of `createJoinTrace` are ordered by the clocks, though no chain of
edges without a `CREATE`–`JOIN` edge leads from the one to the other. -/
theorem createJoin_needed :
    (∀ e ∈ createJoinTrace, Accepted (DepGraph.isSyncVar ⟨createJoinTrace, ∅, ∅⟩) e) ∧
      (∃ vc vc', storedClockAt ⟨createJoinTrace, ∅, ∅⟩ 0 = some vc ∧
        threadClockAt ⟨createJoinTrace, ∅, ∅⟩ 3 = some vc' ∧ vc.le vc') ∧
      ¬ TransGen (Edge createJoinTrace) 0 3 := by
  have hacc : ∀ e ∈ createJoinTrace, Accepted (DepGraph.isSyncVar ⟨createJoinTrace, ∅, ∅⟩) e := by
    decide
  refine ⟨hacc, ?_, fun h => ?_⟩
  · obtain ⟨ra, h⟩ := analyzeLoop_ok_iff.mpr hacc
    refine ⟨_, _, storedClockAt_eq h (k := 0) rfl rfl, threadClockAt_eq h (k := 3) rfl rfl, ?_⟩
    rw [stamp_le_iff h (by omega) (j := 3) rfl, happensBefore_iff]
    have h01 : Edge createJoinTrace 0 1 := ⟨by omega, _, _, rfl, rfl, .programOrder rfl⟩
    have h12 : CreateJoin createJoinTrace 1 2 := ⟨by omega, _, _, rfl, rfl, rfl, rfl, rfl⟩
    have h23 : Edge createJoinTrace 2 3 := ⟨by omega, _, _, rfl, rfl, .programOrder rfl⟩
    exact .tail (.tail (.single (Or.inl h01)) (Or.inr h12)) (Or.inl h23)
  · -- the edges of the two last events come from each other only
    have hback : ∀ i j, 2 ≤ j → Edge createJoinTrace i j → 2 ≤ i := by
      rintro i j hj ⟨hij, e, f, he, hf, h⟩
      by_contra hi
      have hj' : j < 4 := (List.getElem?_eq_some_iff.mp hf).1
      have hi' : i = 0 ∨ i = 1 := by omega
      have hj'' : j = 2 ∨ j = 3 := by omega
      rcases hi' with rfl | rfl <;> rcases hj'' with rfl | rfl <;> cases he <;> cases hf <;>
        exact absurd h (by decide)
    have htwo : ∀ i, TransGen (Edge createJoinTrace) i 3 → 2 ≤ i := by
      intro i hi
      induction hi using TransGen.head_induction_on with
      | single h => exact hback _ _ (by omega) h
      | head h _ ih => exact hback _ _ ih h
    exact absurd (htwo 0 h) (by omega)

/-- The clocks of a store and of a later load of another thread. -/
theorem clock_le_iff_happensBefore_createJoin :
    ∃ vc vc', storedClockAt ⟨createJoinTrace, ∅, ∅⟩ 0 = some vc ∧
      threadClockAt ⟨createJoinTrace, ∅, ∅⟩ 3 = some vc' ∧
      (vc.le vc' ↔
        TransGen (fun i j => Edge createJoinTrace i j ∨ CreateJoin createJoinTrace i j) 0 3) ∧
      ((0 : ℕ) ≠ 1 → ¬ vc'.le vc) ∧
      (vc.isConcurrentWith vc' ↔
        ¬ TransGen (fun i j => Edge createJoinTrace i j ∨ CreateJoin createJoinTrace i j) 0 3) :=
  clock_le_iff_happensBefore (g := ⟨createJoinTrace, ∅, ∅⟩) (by decide) (by decide) (i := 0) (j := 3)
    rfl rfl rfl rfl

end Clocks

/-! ### Races -/

section Races

/-- Two accesses to `a`, one of them a store, that are not ordered. -/
structure UnorderedConflict (evts : List Event) (a : Addr) (i j : ℕ) : Prop where
  lt : i < j
  accesses : ∃ e f, evts[i]? = some e ∧ evts[j]? = some f ∧ e.isAccessEvent ∧ f.isAccessEvent ∧
    e.varAddr = a ∧ f.varAddr = a ∧ (e.opTy = .st ∨ f.opTy = .st)
  unordered : ¬ HappensBefore evts i j

/-- No store to `a` lies strictly between `i` and `j`. -/
def NoStoreBetween (evts : List Event) (a : Addr) (i j : ℕ) : Prop :=
  ∀ l f, i < l → l < j → evts[l]? = some f → f.opTy = .st → f.varAddr ≠ a

variable {g : DepGraph} {ra : RaceAnalyze} {i j : ℕ} {a : Addr}

/-- What an access is compared with: the conflicting accesses with no store in between. -/
theorem conflict_iff {evts : List Event} :
    Conflict evts i j ↔ i < j ∧ ∃ a, (∃ e f, evts[i]? = some e ∧ evts[j]? = some f ∧
      e.isAccessEvent ∧ f.isAccessEvent ∧ e.varAddr = a ∧ f.varAddr = a ∧
        (e.opTy = .st ∨ f.opTy = .st)) ∧ NoStoreBetween evts a i j := by
  constructor
  · rintro ⟨f, hf, hfa, ⟨hlt, ⟨e, he, hop, ha⟩, hlast⟩ | ⟨hst, hlt, ⟨e, he, hop, ha⟩, hlast⟩⟩
    · exact ⟨hlt, _, ⟨e, f, he, hf, Event.isAccessEvent_iff.mpr (Or.inr hop), hfa, ha, rfl, Or.inl hop⟩,
        hlast⟩
    · exact ⟨hlt, _, ⟨e, f, he, hf, Event.isAccessEvent_iff.mpr (Or.inl hop), hfa, ha, rfl, Or.inr hst⟩,
        hlast⟩
  · rintro ⟨hlt, a, ⟨e, f, he, hf, hea, hfa, ha, rfl, hst⟩, hlast⟩
    refine ⟨f, hf, hfa, ?_⟩
    rcases Event.isAccessEvent_iff.mp hea with hop | hop
    · have hfst : f.opTy = .st := hst.resolve_left (by simp [hop])
      exact Or.inr ⟨hfst, hlt, ⟨e, he, hop, ha⟩, hlast⟩
    · exact Or.inl ⟨hlt, ⟨e, he, hop, ha⟩, hlast⟩

/-- The pairs that the analysis reports. -/
theorem mem_pairs (h : analyze g = .ok ra) : (i, j) ∈ ra.getTotalRaceEventPair ↔
    ∃ a, UnorderedConflict g.totEvents a i j ∧ NoStoreBetween g.totEvents a i j := by
  have hinv := accessInv_stateAt le_rfl ((stateAt_length g.totEvents).trans h)
  rw [getTotalRaceEventPair, hinv.races, conflict_iff]
  constructor
  · rintro ⟨-, ⟨hlt, a, ⟨e, f, he, hf, hrest⟩, hno⟩, hc⟩
    exact ⟨a, ⟨hlt, ⟨e, f, he, hf, hrest⟩, (stamp_concurrent_iff h hlt he hf).mp hc⟩, hno⟩
  · rintro ⟨a, ⟨hlt, ⟨e, f, he, hf, hrest⟩, hun⟩, hno⟩
    exact ⟨(List.getElem?_eq_some_iff.mp hf).1, ⟨hlt, a, ⟨e, f, he, hf, hrest⟩, hno⟩,
      (stamp_concurrent_iff h hlt he hf).mpr hun⟩

/-- **The races reported, exactly.** The analysis accepts a trace of acceptable events, no
`assert` failing, and reports the pairs of accesses to one address, at least one a store,
that are not ordered and have no store to the address in between; such a pair is not
reported in reverse, and is of two threads. -/
theorem mem_raceEventPair_iff (hacc : ∀ e ∈ g.totEvents, Accepted g.isSyncVar e) :
    ∃ ra, analyze g = .ok ra ∧
      (∀ i j, (i, j) ∈ ra.getTotalRaceEventPair ↔
        ∃ a, UnorderedConflict g.totEvents a i j ∧ NoStoreBetween g.totEvents a i j) ∧
      ∀ i j, (i, j) ∈ ra.getTotalRaceEventPair → (j, i) ∉ ra.getTotalRaceEventPair ∧
        ∀ e f, g.totEvents[i]? = some e → g.totEvents[j]? = some f → e.tid ≠ f.tid := by
  obtain ⟨ra, h⟩ := analyzeLoop_ok_iff.mpr hacc
  refine ⟨ra, h, fun i j => mem_pairs h, fun i j hij => ⟨fun hji => ?_, fun e f he hf htid => ?_⟩⟩
  · obtain ⟨_, hij, -⟩ := (mem_pairs h).mp hij
    obtain ⟨_, hji, -⟩ := (mem_pairs h).mp hji
    exact absurd hij.lt hji.lt.asymm
  · obtain ⟨_, hij, -⟩ := (mem_pairs h).mp hij
    exact hij.unordered (happensBefore_of_tid_eq hij.lt he hf htid)

/-- Thread 1 loads, and thread 2 stores without synchronising. -/
def racyTrace : List Event :=
  [.makeVarAccessEvent 1 0 1 .ld 8, .makeVarAccessEvent 2 1 2 .st 8]

theorem mem_raceEventPair_iff_racyTrace :
    ∃ ra, analyze ⟨racyTrace, ∅, ∅⟩ = .ok ra ∧
      (∀ i j, (i, j) ∈ ra.getTotalRaceEventPair ↔
        ∃ a, UnorderedConflict racyTrace a i j ∧ NoStoreBetween racyTrace a i j) ∧
      ∀ i j, (i, j) ∈ ra.getTotalRaceEventPair → (j, i) ∉ ra.getTotalRaceEventPair ∧
        ∀ e f, racyTrace[i]? = some e → racyTrace[j]? = some f → e.tid ≠ f.tid :=
  mem_raceEventPair_iff (g := ⟨racyTrace, ∅, ∅⟩) (by decide)

/-- Either no store lies in between, or there is a last one. -/
theorem noStoreBetween_or_last (evts : List Event) (a : Addr) (i j : ℕ) :
    NoStoreBetween evts a i j ∨ ∃ w f, i < w ∧ w < j ∧ evts[w]? = some f ∧ f.opTy = .st ∧
      f.varAddr = a ∧ NoStoreBetween evts a w j := by
  induction j with
  | zero => exact Or.inl fun l f _ hl => absurd hl (Nat.not_lt_zero _)
  | succ j ih =>
    by_cases hj : i < j ∧ ∃ f, evts[j]? = some f ∧ f.opTy = .st ∧ f.varAddr = a
    · obtain ⟨hij, f, hf, hst, ha⟩ := hj
      exact Or.inr ⟨j, f, hij, Nat.lt_succ_self j, hf, hst, ha, fun l f hjl hlj => by omega⟩
    · -- the place `j` itself holds no store to `a`
      have hextend : ∀ w, i ≤ w → NoStoreBetween evts a w j → NoStoreBetween evts a w (j + 1) := by
        intro w hw hno l f hwl hlj hf hst ha
        rcases Nat.lt_succ_iff_lt_or_eq.mp hlj with hlj | rfl
        · exact hno l f hwl hlj hf hst ha
        · exact hj ⟨by omega, f, hf, hst, ha⟩
      rcases ih with hno | ⟨w, f, hiw, hwj, hf, hst, ha, hno⟩
      · exact Or.inl (hextend i le_rfl hno)
      · exact Or.inr ⟨w, f, hiw, by omega, hf, hst, ha, hextend w hiw.le hno⟩

/-- The first access to `a` that is not ordered with a conflicting one is reported: had the
last store before it been ordered with it, then so had been what came before that store. -/
theorem first_unordered_reported (h : analyze g = .ok ra)
    (hun : UnorderedConflict g.totEvents a i j)
    (hfirst : ∀ i' j', j' < j → ¬ UnorderedConflict g.totEvents a i' j') :
    ∃ i', (i', j) ∈ ra.getTotalRaceEventPair ∧ UnorderedConflict g.totEvents a i' j := by
  rcases noStoreBetween_or_last g.totEvents a i j with hno | ⟨w, s, hiw, hwj, hs, hst, ha, hno⟩
  · exact ⟨i, (mem_pairs h).mpr ⟨a, hun, hno⟩, hun⟩
  · obtain ⟨hlt, ⟨e, f, he, hf, hea, hfa, hae, haf, -⟩, hij⟩ := hun
    have hsa : s.isAccessEvent := Event.isAccessEvent_iff.mpr (Or.inr hst)
    have hiw' : HappensBefore g.totEvents i w := by
      by_contra hiw'
      exact hfirst i w hwj ⟨hiw, ⟨e, s, he, hs, hea, hsa, hae, ha, Or.inr hst⟩, hiw'⟩
    have hun' : UnorderedConflict g.totEvents a w j :=
      ⟨hwj, ⟨s, f, hs, hf, hsa, hfa, ha, haf, Or.inl hst⟩, fun hwj' => hij (hiw'.trans hwj')⟩
    exact ⟨w, (mem_pairs h).mpr ⟨a, hun', hno⟩, hun'⟩

/-- **No racy variable is missed.** If two conflicting accesses to `a` are not ordered, then
some pair on `a` is reported; and the earliest access that is not ordered with an earlier
conflicting one is the second component of a reported pair on `a`. -/
theorem exists_raceEventPair (h : analyze g = .ok ra) (a : Addr) :
    ((∃ i j, UnorderedConflict g.totEvents a i j) →
      ∃ i j, (i, j) ∈ ra.getTotalRaceEventPair ∧ UnorderedConflict g.totEvents a i j) ∧
    ∀ j, (∃ i, UnorderedConflict g.totEvents a i j) →
      (∀ i' j', j' < j → ¬ UnorderedConflict g.totEvents a i' j') →
      ∃ i, (i, j) ∈ ra.getTotalRaceEventPair ∧ UnorderedConflict g.totEvents a i j := by
  refine ⟨fun hex => ?_, fun j ⟨i, hun⟩ hfirst => first_unordered_reported h hun hfirst⟩
  -- the earliest such access
  have hex' : ∃ j i, UnorderedConflict g.totEvents a i j := by
    obtain ⟨i, j, hun⟩ := hex
    exact ⟨j, i, hun⟩
  classical
  obtain ⟨i, hun⟩ := Nat.find_spec hex'
  obtain ⟨i', hmem, hun'⟩ := first_unordered_reported h hun fun i' j' hj' hun' =>
    Nat.find_min hex' hj' ⟨i', hun'⟩
  exact ⟨i', _, hmem, hun'⟩

theorem exists_raceEventPair_racyTrace :
    ∃ ra, analyze ⟨racyTrace, ∅, ∅⟩ = .ok ra ∧
      ((∃ i j, UnorderedConflict racyTrace 8 i j) →
        ∃ i j, (i, j) ∈ ra.getTotalRaceEventPair ∧ UnorderedConflict racyTrace 8 i j) ∧
      ∀ j, (∃ i, UnorderedConflict racyTrace 8 i j) →
        (∀ i' j', j' < j → ¬ UnorderedConflict racyTrace 8 i' j') →
        ∃ i, (i, j) ∈ ra.getTotalRaceEventPair ∧ UnorderedConflict racyTrace 8 i j := by
  obtain ⟨ra, h⟩ := analyzeLoop_ok_iff.mpr
    (show ∀ e ∈ racyTrace, Accepted (DepGraph.isSyncVar ⟨racyTrace, ∅, ∅⟩) e by decide)
  exact ⟨ra, h, exists_raceEventPair (g := ⟨racyTrace, ∅, ∅⟩) h 8⟩

end Races

end Schnauzer
