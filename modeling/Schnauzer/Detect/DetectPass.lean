import Mathlib.Algebra.Order.BigOperators.Group.Finset
import Mathlib.Data.Finset.Sort
import Mathlib.Data.Prod.Lex
import Schnauzer.Depgraph.ExpandedTrace
import Schnauzer.Depgraph.SyncPairs
import Schnauzer.Detect.RaceTable
import Schnauzer.Detect.ThreadSummary

/-!
# The detection

`analyze/detect/DetectPass`: the pairs that the race analysis has found are counted for the threads of their events,
with the distance of the timestamps, before the pair for the first and behind it for the second. The files that are
written in the end are left out.

A `std::set` of pairs of pointers is traversed in the order of the addresses, which is any order.

## What is proved

* `earlier_of_race`, `earlier_of_sync` — the first event of a pair is the earlier one.
* `represents_loopPairs` — a loop over the pairs posts four increments for each.
* `analyze_conserved` — **the summary of the threads** is conserved: the pairs that threads are in front of are those
  that threads are behind.
-/

namespace Schnauzer

open Ledger ThreadSummary

/-- The order in which a set of pairs of pointers is traversed. -/
structure Traversal where
  elems : Finset (ℕ × ℕ) → List (ℕ × ℕ)
  /-- Every element once. -/
  elems_eq : ∀ s, (elems s : Multiset (ℕ × ℕ)) = s.val

/-- The order of the places. -/
def Traversal.byPlace : Traversal where
  elems := fun s => ((s.map ⟨toLex, toLex.injective⟩).sort (· ≤ ·)).map ofLex
  elems_eq := fun s => by
    rw [← Multiset.map_coe, Finset.sort_eq, Finset.map_val, Multiset.map_map]
    exact Multiset.map_id _

theorem Traversal.mem_elems {order : Traversal} {set : Finset (ℕ × ℕ)} {p : ℕ × ℕ} :
    p ∈ order.elems set ↔ p ∈ set := by
  rw [← Multiset.mem_coe, order.elems_eq, Finset.mem_val]

theorem Traversal.sum_elems {order : Traversal} {set : Finset (ℕ × ℕ)} (f : ℕ × ℕ → ℤ) :
    ((order.elems set).map f).sum = ∑ p ∈ set, f p := by
  rw [Finset.sum, ← order.elems_eq, Multiset.map_coe, Multiset.sum_coe]

/-- The event that a pointer points to. -/
def DepGraph.deref (g : DepGraph) (p : ℕ) : Except Abort Event :=
  match g.totEvents[p]? with
  | some evt => .ok evt
  | none => .error .dangling

/-- The counters of one kind of pair. -/
structure PairItems where
  nrBefore : List Char
  nrAfter : List Char
  beforeDistance : List Char
  afterDistance : List Char

/-- What `DetectPass::analyze` has found. -/
structure Detected where
  /-- `race_vars`. -/
  raceVars : Finset Addr
  /-- `race_table`. -/
  raceTable : InstRaceTable
  /-- `__thread_summary_table`. -/
  summary : ThreadSummary

namespace DetectPass

/-- The counters of the races. -/
def eventRace : PairItems :=
  ⟨"nr_before_event_race".toList, "nr_after_event_race".toList, "before_event_race_distance".toList,
    "after_event_race_distance".toList⟩

/-- The counters of the synchronisations. -/
def syncHb : PairItems :=
  ⟨"nr_before_sync_hb".toList, "nr_after_sync_hb".toList, "before_sync_hb_distance".toList,
    "after_sync_hb_distance".toList⟩

/-- `(int64_t)second->getTimeStamp() - (int64_t)first->getTimeStamp()`. -/
def timeDistance (first second : Event) : ℤ := toInt64 (toInt64 second.timestamp - toInt64 first.timestamp)

/-- What the bodies of both loops do with the summary. -/
def countPair (items : PairItems) (first second : Event) (summary : ThreadSummary) : Except Abort ThreadSummary := do
  let firstTid ← first.getThread
  let secondTid ← second.getThread
  let summary := (summary.getThreadSummary firstTid).getThreadSummary secondTid
  if first.timestamp < second.timestamp then do
    let d := timeDistance first second
    let summary ← summary.incItem firstTid items.beforeDistance d
    let summary ← summary.incItem secondTid items.afterDistance d
    let summary ← summary.incItem firstTid items.nrBefore 1
    summary.incItem secondTid items.nrAfter 1
  else do
    let d := timeDistance second first
    let summary ← summary.incItem firstTid items.afterDistance d
    let summary ← summary.incItem secondTid items.beforeDistance d
    let summary ← summary.incItem firstTid items.nrAfter 1
    summary.incItem secondTid items.nrBefore 1

/-- The body of the loop over the races. -/
def countRace (first second : Event) (found : Detected) : Except Abort Detected := do
  let firstAddr ← first.getAddress
  let secondAddr ← second.getAddress
  if firstAddr ≠ secondAddr then .error .detectPass
  else do
    let raceTable ← found.raceTable.addRace first second
    let summary ← countPair eventRace first second found.summary
    return ⟨insert secondAddr (insert firstAddr found.raceVars), raceTable, summary⟩

/-- The body of the loop over the synchronisations. -/
def countSync (first second : Event) (summary : ThreadSummary) : Except Abort ThreadSummary := do
  let firstAddr ← first.getAddress
  let secondAddr ← second.getAddress
  if firstAddr ≠ secondAddr then .error .detectPass
  else countPair syncHb first second summary

/-- A loop over pairs of pointers. -/
def loopPairs {σ : Type} (g : DepGraph) (body : Event → Event → σ → Except Abort σ) :
    List (ℕ × ℕ) → σ → Except Abort σ
  | [], s => .ok s
  | p :: ps, s => do
    let first ← g.deref p.1
    let second ← g.deref p.2
    let s ← body first second s
    loopPairs g body ps s

/-- The loop over the events of the graph. -/
def countEvents : List Event → ThreadSummary → Except Abort ThreadSummary
  | [], summary => .ok summary
  | evt :: evts, summary => do
    let tid ← evt.getThread
    let summary ← (summary.getThreadSummary tid).incItem tid nrEvent 1
    countEvents evts summary

/-- `DetectPass::analyze`, as far as the files. -/
def analyze (order : Traversal) (g : DepGraph) : Except Abort Detected := do
  let ra ← RaceAnalyze.analyze g
  let found ← loopPairs g countRace (order.elems ra.getTotalRaceEventPair) ⟨∅, .empty, .empty⟩
  let summary ← loopPairs g countSync (order.elems ra.getTotalSyncHbEventPair) found.summary
  let summary ← countEvents g.totEvents summary
  return { found with summary := summary }

end DetectPass

/-! ### The pairs -/

/-- The events of a pair: the first is earlier, and both have a thread. -/
structure EarlierPair (g : DepGraph) (p : ℕ × ℕ) (first second : Event) : Prop where
  first_eq : g.totEvents[p.1]? = some first
  second_eq : g.totEvents[p.2]? = some second
  lt : first.timestamp < second.timestamp
  firstTid : first.tid < UNDEFINED_TID
  secondTid : second.tid < UNDEFINED_TID

section Pairs

variable {file : List Event} {g : DepGraph} {ra : RaceAnalyze} {p : ℕ × ℕ} {evt : Event}

/-- The thread of an event that was analysed. -/
theorem tid_lt_of_analyze (hra : RaceAnalyze.analyze g = .ok ra) (h : evt ∈ g.totEvents) : evt.tid < UNDEFINED_TID :=
  (analyzeLoop_ok_iff.mp ⟨ra, hra⟩ evt h).1.trans_le (by decide)

/-- **The first event of a race** is earlier: the two are of different threads. -/
theorem earlier_of_race (hload : loadTrace file = .ok g) (hra : RaceAnalyze.analyze g = .ok ra)
    (hp : p ∈ ra.getTotalRaceEventPair) :
    ∃ first second, EarlierPair g p first second ∧ InstRaceTable.RacePair (first, second) := by
  obtain ⟨a, hun, -⟩ := (mem_pairs hra).mp hp
  obtain ⟨first, second, hfirst, hsecond, hacc, hacc', ha, ha', -⟩ := hun.accesses
  have hmem := List.mem_of_getElem? hfirst
  have hmem' := List.mem_of_getElem? hsecond
  have htid : first.tid ≠ second.tid := fun h => hun.unordered (happensBefore_of_tid_eq hun.lt hfirst hsecond h)
  refine ⟨first, second, ⟨hfirst, hsecond, timestamp_lt hload hun.lt hfirst hsecond (Or.inl htid),
    tid_lt_of_analyze hra hmem, tid_lt_of_analyze hra hmem'⟩, hacc, ?_, ?_, ha.trans ha'.symm⟩
  · obtain ⟨-, ⟨hop, -⟩ | hop | ⟨-, hlen, -⟩⟩ := analyzeLoop_ok_iff.mp ⟨ra, hra⟩ first hmem
    · exact absurd hacc (by simp [Event.not_access_of_threadOp hop])
    · exact absurd hacc (by simp [Event.not_access_of_sync hop])
    · exact hlen
  · obtain hop | hop := Event.isAccessEvent_iff.mp hacc' <;> simp [hop]

/-- **The first event of a synchronisation** is earlier: it releases what the second acquires. -/
theorem earlier_of_sync (hload : loadTrace file = .ok g) (hra : RaceAnalyze.analyze g = .ok ra)
    (hp : p ∈ ra.getTotalSyncHbEventPair) : ∃ first second, EarlierPair g p first second ∧ first.isSyncRelEvent ∧
      second.isSyncAcqEvent ∧ first.varAddr = second.varAddr := by
  obtain ⟨hlt, first, second, hfirst, hsecond, hrel, hacq, ha⟩ := ((mem_syncPairs hra).mp hp).releaseAcquire
  have hop : first.opTy ≠ second.opTy := by
    intro hop
    have hrel' : second.isSyncRelEvent := by rwa [Event.isSyncRelEvent, ← hop]
    exact absurd hacq (by simp [not_acquire_of_release hrel'])
  exact ⟨first, second, ⟨hfirst, hsecond, timestamp_lt hload hlt hfirst hsecond (Or.inr hop),
    tid_lt_of_analyze hra (List.mem_of_getElem? hfirst), tid_lt_of_analyze hra (List.mem_of_getElem? hsecond)⟩,
    hrel, hacq, ha⟩

end Pairs

/-! ### The increments -/

/-- What the timestamps of a pair are apart. -/
def DepGraph.distance (g : DepGraph) (p : ℕ × ℕ) : ℤ :=
  match g.totEvents[p.1]?, g.totEvents[p.2]? with
  | some first, some second => second.timestamp - first.timestamp
  | _, _ => 0

/-- The increments for a pair. -/
def DepGraph.postings (g : DepGraph) (items : PairItems) (p : ℕ × ℕ) : List (Posting ℕ (List Char)) :=
  match g.totEvents[p.1]?, g.totEvents[p.2]? with
  | some first, some second =>
    [⟨first.tid, items.beforeDistance, g.distance p⟩, ⟨second.tid, items.afterDistance, g.distance p⟩,
      ⟨first.tid, items.nrBefore, 1⟩, ⟨second.tid, items.nrAfter, 1⟩]
  | _, _ => []

/-- The counters of a kind of pair, one behind the other. -/
def PairItems.names (items : PairItems) : List (List Char) :=
  [items.nrBefore, items.nrAfter, items.beforeDistance, items.afterDistance]

/-- Four known counters. -/
structure PairItems.Known (items : PairItems) : Prop where
  nodup : items.names.Nodup
  mem : ∀ name ∈ items.names, name ∈ itemNames

namespace DetectPass

open PairItems

section Loops

variable {g : DepGraph} {p : ℕ × ℕ} {first second : Event} {items : PairItems} {summary : ThreadSummary}
  {ps : List (Posting ℕ (List Char))} {pairs : List (ℕ × ℕ)}

theorem known_eventRace : eventRace.Known := ⟨by decide, by decide⟩

theorem known_syncHb : syncHb.Known := ⟨by decide, by decide⟩

theorem deref_ok {k : ℕ} {evt : Event} (h : g.totEvents[k]? = some evt) : g.deref k = .ok evt := by
  rw [DepGraph.deref, h]

theorem distance_eq (h : EarlierPair g p first second) : g.distance p = second.timestamp - first.timestamp := by
  rw [DepGraph.distance, h.first_eq, h.second_eq]

theorem distance_pos (h : EarlierPair g p first second) : 0 < g.distance p := by
  have hlt := h.lt
  rw [distance_eq h]
  omega

/-- The distance that is counted. -/
theorem timeDistance_eq (h : EarlierPair g p first second) (hfit : g.distance p < 2 ^ 63) :
    timeDistance first second = g.distance p := by
  rw [timeDistance, toInt64_sub, ← distance_eq h]
  exact toInt64_eq (distance_pos h).le hfit

theorem postings_eq (h : EarlierPair g p first second) : g.postings items p =
    [⟨first.tid, items.beforeDistance, g.distance p⟩, ⟨second.tid, items.afterDistance, g.distance p⟩,
      ⟨first.tid, items.nrBefore, 1⟩, ⟨second.tid, items.nrAfter, 1⟩] := by
  rw [DepGraph.postings, h.first_eq, h.second_eq]

theorem postable_postings (hitems : items.Known) (h : EarlierPair g p first second) :
    Postable (g.postings items p) := by
  have hmem := hitems.mem
  have hpos := distance_pos h
  rw [names] at hmem
  rw [postings_eq h]
  intro q hq
  simp only [List.mem_cons, List.not_mem_nil, or_false] at hq
  obtain rfl | rfl | rfl | rfl := hq
  · exact ⟨hmem _ (by simp), hpos⟩
  · exact ⟨hmem _ (by simp), hpos⟩
  · exact ⟨hmem _ (by simp), one_pos⟩
  · exact ⟨hmem _ (by simp), one_pos⟩

/-- **A pair**: its increments. -/
theorem countPair_eq (h : EarlierPair g p first second) (hfit : g.distance p < 2 ^ 63) :
    countPair items first second summary =
      ((summary.getThreadSummary first.tid).getThreadSummary second.tid).post (g.postings items p) := by
  have hfirst : first.getThread = .ok first.tid := if_pos h.firstTid
  have hsecond : second.getThread = .ok second.tid := if_pos h.secondTid
  rw [countPair, hfirst, hsecond, postings_eq h, ← timeDistance_eq h hfit]
  simp only [ok_bind, if_pos h.lt, post, bind_ok]

/-- The increments of all pairs. -/
theorem postable_flatMap (hitems : items.Known)
    (hpairs : ∀ p ∈ pairs, ∃ first second, EarlierPair g p first second) :
    Postable (pairs.flatMap (g.postings items)) := by
  intro q hq
  obtain ⟨p, hp, hq⟩ := List.mem_flatMap.mp hq
  obtain ⟨first, second, h⟩ := hpairs p hp
  exact postable_postings hitems h q hq

/-- **A loop over the pairs** posts their increments, when its body counts a pair. -/
theorem represents_loopPairs {σ : Type} {body : Event → Event → σ → Except Abort σ} (summaryOf : σ → ThreadSummary)
    {s : σ} (hitems : items.Known) (hpairs : ∀ p ∈ pairs, ∃ first second, EarlierPair g p first second ∧
      ∀ s summary, countPair items first second (summaryOf s) = .ok summary →
        ∃ s', body first second s = .ok s' ∧ summaryOf s' = summary)
    (hdist : ∀ p ∈ pairs, g.distance p < 2 ^ 63) (h : (summaryOf s).Represents ps) (hps : Credits ps)
    (hfit : ∀ c, total (ps ++ pairs.flatMap (g.postings items)) c < 2 ^ 63) :
    ∃ s', loopPairs g body pairs s = .ok s' ∧
      (summaryOf s').Represents (ps ++ pairs.flatMap (g.postings items)) := by
  induction pairs generalizing ps s with
  | nil => exact ⟨s, rfl, by rwa [List.flatMap_nil, List.append_nil]⟩
  | cons p pairs ih =>
    obtain ⟨⟨first, second, hp, hbody⟩, hpairs⟩ := List.forall_mem_cons.mp hpairs
    obtain ⟨hd, hdist⟩ := List.forall_mem_cons.mp hdist
    have hpost := postable_postings hitems hp
    rw [List.flatMap_cons, ← List.append_assoc] at hfit ⊢
    have hrest : Postable (pairs.flatMap (g.postings items)) := postable_flatMap hitems fun q hq => by
      obtain ⟨first, second, hq, -⟩ := hpairs q hq
      exact ⟨first, second, hq⟩
    have hfit₁ : ∀ c, total (ps ++ g.postings items p) c < 2 ^ 63 := fun c => by
      have htotal := hfit c
      rw [total_append] at htotal
      have hnonneg := hrest.credits.total_nonneg (c := c)
      omega
    obtain ⟨summary, hsummary, h₁⟩ := ((h.getThreadSummary first.tid).getThreadSummary second.tid).post hps hpost hfit₁
    rw [← countPair_eq hp hd] at hsummary
    obtain ⟨s₁, hs₁, rfl⟩ := hbody s summary hsummary
    obtain ⟨s', hs', h'⟩ := ih hpairs hdist h₁ (hps.append hpost.credits) hfit
    exact ⟨s', bind_eq_ok.mpr ⟨first, deref_ok hp.first_eq, bind_eq_ok.mpr ⟨second, deref_ok hp.second_eq,
      bind_eq_ok.mpr ⟨s₁, hs₁, hs'⟩⟩⟩, h'⟩

/-- The increments for the events. -/
def eventPostings (evts : List Event) : List (Posting ℕ (List Char)) := evts.map fun evt => ⟨evt.tid, nrEvent, 1⟩

theorem total_eventPostings {evts : List Event} {c : List Char} :
    total (eventPostings evts) c = if nrEvent = c then (evts.length : ℤ) else 0 := by
  induction evts with
  | nil => simp [eventPostings]
  | cons evt evts ih =>
    rw [eventPostings, List.map_cons, total_cons, ← eventPostings, ih, List.length_cons]
    dsimp only
    split_ifs <;> omega

/-- **The loop over the events** posts an increment for each. -/
theorem represents_countEvents {evts : List Event} (htid : ∀ evt ∈ evts, evt.tid < UNDEFINED_TID)
    (h : summary.Represents ps) (hps : Credits ps) (hfit : total ps nrEvent + evts.length < 2 ^ 63) :
    ∃ summary', countEvents evts summary = .ok summary' ∧ summary'.Represents (ps ++ eventPostings evts) := by
  induction evts generalizing ps summary with
  | nil => exact ⟨summary, rfl, by rwa [eventPostings, List.map_nil, List.append_nil]⟩
  | cons evt evts ih =>
    obtain ⟨ht, htid⟩ := List.forall_mem_cons.mp htid
    rw [List.length_cons] at hfit
    obtain ⟨summary₁, hinc, h₁⟩ := (h.getThreadSummary evt.tid).incItem evt.tid hps
      (by decide : nrEvent ∈ itemNames) one_pos (by omega)
    have hone : Credits [(⟨evt.tid, nrEvent, 1⟩ : Posting ℕ (List Char))] := fun q hq => by
      cases List.mem_singleton.mp hq
      exact zero_le_one
    obtain ⟨summary', hs', h'⟩ := ih htid h₁ (hps.append hone) (by
      rw [total_append, total_cons, if_pos rfl, total_nil]
      dsimp only
      omega)
    rw [eventPostings, List.map_cons, List.append_cons]
    exact ⟨summary', bind_eq_ok.mpr ⟨evt.tid, if_pos ht, bind_eq_ok.mpr ⟨summary₁, hinc, hs'⟩⟩, h'⟩

/-! ### The totals -/

/-- What a pair adds to a counter. -/
def amount (items : PairItems) (d : ℤ) (c : List Char) : ℤ :=
  if c = items.nrBefore ∨ c = items.nrAfter then 1
  else if c = items.beforeDistance ∨ c = items.afterDistance then d
  else 0

theorem amount_of_not_mem {d : ℤ} {c : List Char} (hc : c ∉ items.names) : amount items d c = 0 := by
  simp only [names, List.mem_cons, List.not_mem_nil, or_false, not_or] at hc
  obtain ⟨h₁, h₂, h₃, h₄⟩ := hc
  rw [amount, if_neg (not_or.mpr ⟨h₁, h₂⟩), if_neg (not_or.mpr ⟨h₃, h₄⟩)]

theorem amount_le {d : ℤ} {c : List Char} (hd : 0 < d) : amount items d c ≤ d := by
  unfold amount
  split_ifs <;> omega

theorem total_postings (hitems : items.Known) (h : EarlierPair g p first second) {c : List Char} :
    total (g.postings items p) c = amount items (g.distance p) c := by
  have hnodup := hitems.nodup
  simp only [names, List.nodup_cons, List.mem_cons, List.not_mem_nil, or_false, not_or] at hnodup
  obtain ⟨⟨h₁₂, h₁₃, h₁₄⟩, ⟨h₂₃, h₂₄⟩, h₃₄, -⟩ := hnodup
  rw [postings_eq h, amount]
  simp only [total_cons, total_nil]
  -- the column is one of the four at most
  grind

/-- The pairs, each with its first event in front. -/
def AllEarlier (g : DepGraph) (pairs : List (ℕ × ℕ)) : Prop :=
  ∀ p ∈ pairs, ∃ first second, EarlierPair g p first second

theorem total_pairs (hitems : items.Known) (hpairs : AllEarlier g pairs) {c : List Char} :
    total (pairs.flatMap (g.postings items)) c = (pairs.map fun p => amount items (g.distance p) c).sum := by
  rw [total_flatMap]
  refine congrArg List.sum (List.map_congr_left fun p hp => ?_)
  obtain ⟨first, second, h⟩ := hpairs p hp
  exact total_postings hitems h

/-- The pairs of one kind leave the other counters alone. -/
theorem total_pairs_of_not_mem (hitems : items.Known) (hpairs : AllEarlier g pairs) {c : List Char}
    (hc : c ∉ items.names) : total (pairs.flatMap (g.postings items)) c = 0 := by
  rw [total_pairs hitems hpairs]
  simp [amount_of_not_mem hc]

/-- A total is at most that of the distances. -/
theorem total_pairs_le (hitems : items.Known) (hpairs : AllEarlier g pairs) {c : List Char} :
    total (pairs.flatMap (g.postings items)) c ≤ (pairs.map g.distance).sum := by
  rw [total_pairs hitems hpairs]
  apply List.sum_le_sum
  intro p hp
  obtain ⟨first, second, h⟩ := hpairs p hp
  exact amount_le (distance_pos h)

end Loops

/-! ### Conservation -/

/-- What the counters of one kind of pair are, summed over the threads. -/
structure Conserved (items : PairItems) (summary : ThreadSummary) (pairs : Finset (ℕ × ℕ)) : Prop where
  nrBefore : summary.sum items.nrBefore = pairs.card
  nrAfter : summary.sum items.nrAfter = pairs.card
  distance : summary.sum items.beforeDistance = summary.sum items.afterDistance

/-- The totals are below `2 ^ 63`; there are no more pairs than their distances add up to. -/
structure TotalsFit (g : DepGraph) (ra : RaceAnalyze) : Prop where
  events : g.totEvents.length < 2 ^ 63
  races : ∑ p ∈ ra.getTotalRaceEventPair, g.distance p < 2 ^ 63
  syncs : ∑ p ∈ ra.getTotalSyncHbEventPair, g.distance p < 2 ^ 63

/-- The first event of a pair has the smaller timestamp, and the distance is positive. -/
def CountedForward (g : DepGraph) (p : ℕ × ℕ) : Prop :=
  ∃ first second, g.totEvents[p.1]? = some first ∧ g.totEvents[p.2]? = some second ∧
    first.timestamp < second.timestamp ∧ 0 < timeDistance first second

section Conservation

variable {file : List Event} {g : DepGraph} {ra : RaceAnalyze} {p : ℕ × ℕ} {first second : Event} {items : PairItems}
  {summary : ThreadSummary} {pairs : List (ℕ × ℕ)} {set : Finset (ℕ × ℕ)} {order : Traversal}

/-- The body of the loop over the races counts a race. -/
theorem countRace_ok (h : InstRaceTable.RacePair (first, second)) {found : Detected}
    (hs : countPair eventRace first second found.summary = .ok summary) :
    ∃ found', countRace first second found = .ok found' ∧ found'.summary = summary := by
  have hop : first.opTy ≠ .create ∧ first.opTy ≠ .join := by
    have hacc : first.opTy = .ld ∨ first.opTy = .st := Event.isAccessEvent_iff.mp h.access
    obtain hop | hop := hacc <;> simp [hop]
  have hfirst := InstRaceTable.getAddress_eq_ok.mpr ⟨hop, rfl⟩
  have hsecond := InstRaceTable.getAddress_eq_ok.mpr ⟨h.second, rfl⟩
  obtain ⟨table, htable⟩ : ∃ table, found.raceTable.addRace first second = .ok table :=
    ⟨⟨_, sortedTable_emplaceBack found.raceTable.sorted, filled_emplaceBack found.raceTable.filled⟩,
      InstRaceTable.addRace_ok_iff.mpr ⟨h, rfl⟩⟩
  refine ⟨⟨insert second.varAddr (insert first.varAddr found.raceVars), table, summary⟩, ?_, rfl⟩
  rw [countRace, hfirst, hsecond, ok_bind, ok_bind, if_neg (not_not.mpr h.address), htable, hs]
  rfl

/-- The body of the loop over the synchronisations counts a pair. -/
theorem countSync_ok (hrel : first.isSyncRelEvent) (hacq : second.isSyncAcqEvent)
    (ha : first.varAddr = second.varAddr) :
    countSync first second summary = countPair syncHb first second summary := by
  have hop : first.opTy ≠ .create ∧ first.opTy ≠ .join := by
    obtain hop | hop | hop := Event.isSyncRelEvent_iff.mp hrel <;> simp [hop]
  have hop' : second.opTy ≠ .create ∧ second.opTy ≠ .join := by
    obtain hop | hop | hop := Event.isSyncAcqEvent_iff.mp hacq <;> simp [hop]
  rw [countSync, InstRaceTable.getAddress_eq_ok.mpr ⟨hop, rfl⟩, InstRaceTable.getAddress_eq_ok.mpr ⟨hop', rfl⟩,
    ok_bind, ok_bind, if_neg (not_not.mpr ha)]

/-- What the totals of a kind of pair are. -/
theorem conserved_of_totals (hitems : items.Known) (hpairs : AllEarlier g (order.elems set))
    (h : ∀ c ∈ items.names, summary.sum c = total ((order.elems set).flatMap (g.postings items)) c) :
    Conserved items summary set := by
  have hnames := hitems.nodup
  simp only [names, List.nodup_cons, List.mem_cons, List.not_mem_nil, or_false, not_or] at hnames
  obtain ⟨⟨-, h₁₃, h₁₄⟩, ⟨h₂₃, h₂₄⟩, -, -⟩ := hnames
  have hsum : ∀ c ∈ items.names, summary.sum c = ∑ p ∈ set, amount items (g.distance p) c := fun c hc => by
    rw [h c hc, total_pairs hitems hpairs, Traversal.sum_elems]
  have hcard : ∀ c, (∀ d, amount items d c = 1) → ∑ p ∈ set, amount items (g.distance p) c = set.card := by
    intro c hc
    simp [hc]
  refine ⟨?_, ?_, ?_⟩
  · rw [hsum _ (by simp [names])]
    exact hcard _ fun d => if_pos (Or.inl rfl)
  · rw [hsum _ (by simp [names])]
    exact hcard _ fun d => if_pos (Or.inr rfl)
  · rw [hsum _ (by simp [names]), hsum _ (by simp [names])]
    apply Finset.sum_congr rfl
    intro p _
    grind [amount]

/-- What the whole pass posts. -/
def ledger (order : Traversal) (g : DepGraph) (ra : RaceAnalyze) : List (Posting ℕ (List Char)) :=
  (order.elems ra.getTotalRaceEventPair).flatMap (g.postings eventRace) ++
    (order.elems ra.getTotalSyncHbEventPair).flatMap (g.postings syncHb) ++ eventPostings g.totEvents

/-- No counter is of both kinds. -/
theorem names_disjoint : ∀ c ∈ eventRace.names, c ∉ syncHb.names := by decide

/-- And none counts the events. -/
theorem nrEvent_not_mem : nrEvent ∉ eventRace.names ∧ nrEvent ∉ syncHb.names := by decide

/-- No pair is further apart than all together. -/
theorem distance_lt (hall : ∀ p ∈ set, ∃ first second, EarlierPair g p first second)
    (hfit : ∑ p ∈ set, g.distance p < 2 ^ 63) (hp : p ∈ set) : g.distance p < 2 ^ 63 := by
  refine (Finset.single_le_sum (fun q hq => ?_) hp).trans_lt hfit
  obtain ⟨first, second, h⟩ := hall q hq
  exact (distance_pos h).le

theorem allEarlier_elems (order : Traversal) (hall : ∀ p ∈ set, ∃ first second, EarlierPair g p first second) :
    AllEarlier g (order.elems set) := fun p hp => hall p (Traversal.mem_elems.mp hp)

/-- The totals of the two loops over pairs fit. -/
theorem total_loops_lt {races syncs : List (ℕ × ℕ)} (hraces : AllEarlier g races) (hsyncs : AllEarlier g syncs)
    (hrace : (races.map g.distance).sum < 2 ^ 63) (hsync : (syncs.map g.distance).sum < 2 ^ 63) (c : List Char) :
    total (races.flatMap (g.postings eventRace) ++ syncs.flatMap (g.postings syncHb)) c < 2 ^ 63 := by
  rw [total_append]
  by_cases hc : c ∈ eventRace.names
  · rw [total_pairs_of_not_mem known_syncHb hsyncs (names_disjoint c hc), add_zero]
    exact (total_pairs_le known_eventRace hraces).trans_lt hrace
  · rw [total_pairs_of_not_mem known_eventRace hraces hc, zero_add]
    exact (total_pairs_le known_syncHb hsyncs).trans_lt hsync

section Loaded

variable (hload : loadTrace file = .ok g) (hra : RaceAnalyze.analyze g = .ok ra)
include hload hra

theorem earlier_races : ∀ p ∈ ra.getTotalRaceEventPair, ∃ first second, EarlierPair g p first second := by
  intro p hp
  obtain ⟨first, second, h, -⟩ := earlier_of_race hload hra hp
  exact ⟨first, second, h⟩

theorem earlier_syncs : ∀ p ∈ ra.getTotalSyncHbEventPair, ∃ first second, EarlierPair g p first second := by
  intro p hp
  obtain ⟨first, second, h, -⟩ := earlier_of_sync hload hra hp
  exact ⟨first, second, h⟩

/-- The loop over the races. -/
theorem loop_races (order : Traversal) (hfit : TotalsFit g ra) :
    ∃ found, loopPairs g countRace (order.elems ra.getTotalRaceEventPair) ⟨∅, .empty, .empty⟩ = .ok found ∧
      found.summary.Represents ((order.elems ra.getTotalRaceEventPair).flatMap (g.postings eventRace)) := by
  have hall := earlier_races hload hra
  refine represents_loopPairs (s := ⟨∅, .empty, .empty⟩) Detected.summary known_eventRace (fun p hp => ?_)
    (fun p hp => distance_lt hall hfit.races (Traversal.mem_elems.mp hp)) .empty (by rintro _ ⟨⟩) fun c => ?_
  · obtain ⟨first, second, h, hrace⟩ := earlier_of_race hload hra (Traversal.mem_elems.mp hp)
    exact ⟨first, second, h, fun _ _ => countRace_ok hrace⟩
  · rw [List.nil_append]
    exact (total_pairs_le known_eventRace (allEarlier_elems _ hall)).trans_lt
      ((Traversal.sum_elems _).trans_lt hfit.races)

/-- The loop over the synchronisations, behind it. -/
theorem loop_syncs (hfit : TotalsFit g ra)
    (h : summary.Represents ((order.elems ra.getTotalRaceEventPair).flatMap (g.postings eventRace))) :
    ∃ summary', loopPairs g countSync (order.elems ra.getTotalSyncHbEventPair) summary = .ok summary' ∧
      summary'.Represents ((order.elems ra.getTotalRaceEventPair).flatMap (g.postings eventRace) ++
        (order.elems ra.getTotalSyncHbEventPair).flatMap (g.postings syncHb)) := by
  have hraces := allEarlier_elems order (earlier_races hload hra)
  have hall := earlier_syncs hload hra
  refine represents_loopPairs id known_syncHb (fun p hp => ?_)
    (fun p hp => distance_lt hall hfit.syncs (Traversal.mem_elems.mp hp)) h
    (postable_flatMap known_eventRace hraces).credits ?_
  · obtain ⟨first, second, h, hrel, hacq, ha⟩ := earlier_of_sync hload hra (Traversal.mem_elems.mp hp)
    exact ⟨first, second, h, fun s summary hs => ⟨summary, (countSync_ok hrel hacq ha).trans hs, rfl⟩⟩
  · exact total_loops_lt hraces (allEarlier_elems _ hall) ((Traversal.sum_elems _).trans_lt hfit.races)
      ((Traversal.sum_elems _).trans_lt hfit.syncs)

/-- **The whole pass**: no `assert` fails, and the summary is that of the ledger. -/
theorem analyze_ok (order : Traversal) (hfit : TotalsFit g ra) :
    ∃ found, analyze order g = .ok found ∧ found.summary.Represents (ledger order g ra) := by
  have hraces := allEarlier_elems order (earlier_races hload hra)
  have hsyncs := allEarlier_elems order (earlier_syncs hload hra)
  obtain ⟨found, hfound, h₁⟩ := loop_races hload hra order hfit
  obtain ⟨summary, hsummary, h₂⟩ := loop_syncs hload hra hfit h₁
  obtain ⟨summary', hsummary', h₃⟩ := represents_countEvents (fun evt => tid_lt_of_analyze hra) h₂
    ((postable_flatMap known_eventRace hraces).append (postable_flatMap known_syncHb hsyncs)).credits (by
      have hevents := hfit.events
      rw [total_append, total_pairs_of_not_mem known_eventRace hraces nrEvent_not_mem.1,
        total_pairs_of_not_mem known_syncHb hsyncs nrEvent_not_mem.2]
      omega)
  exact ⟨{ found with summary := summary' }, bind_eq_ok.mpr ⟨ra, hra, bind_eq_ok.mpr ⟨found, hfound,
    bind_eq_ok.mpr ⟨summary, hsummary, bind_eq_ok.mpr ⟨summary', hsummary', rfl⟩⟩⟩⟩, h₃⟩

end Loaded

theorem countedForward_of_earlier (hall : ∀ p ∈ set, ∃ first second, EarlierPair g p first second)
    (hfit : ∑ p ∈ set, g.distance p < 2 ^ 63) (hp : p ∈ set) : CountedForward g p := by
  obtain ⟨first, second, h⟩ := hall p hp
  refine ⟨first, second, h.first_eq, h.second_eq, h.lt, ?_⟩
  rw [timeDistance_eq h (distance_lt hall hfit hp)]
  exact distance_pos h

/-- **The summary of the threads** is conserved: the pass counts every pair forward, no `assert` fails, and summed over
the threads the counters in front of the pairs are those behind them. -/
theorem analyze_conserved (order : Traversal) (hload : loadTrace file = .ok g) (hra : RaceAnalyze.analyze g = .ok ra)
    (hfit : TotalsFit g ra) :
    (∀ p ∈ ra.getTotalRaceEventPair, CountedForward g p) ∧
      (∀ p ∈ ra.getTotalSyncHbEventPair, CountedForward g p) ∧
      ∃ found, analyze order g = .ok found ∧ Conserved eventRace found.summary ra.getTotalRaceEventPair ∧
        Conserved syncHb found.summary ra.getTotalSyncHbEventPair := by
  have hall := earlier_races hload hra
  have hall' := earlier_syncs hload hra
  refine ⟨fun p => countedForward_of_earlier hall hfit.races, fun p => countedForward_of_earlier hall' hfit.syncs, ?_⟩
  obtain ⟨found, hfound, h⟩ := analyze_ok hload hra order hfit
  have hraces := allEarlier_elems order hall
  have hsyncs := allEarlier_elems order hall'
  refine ⟨found, hfound, conserved_of_totals known_eventRace hraces fun c hc => ?_,
    conserved_of_totals known_syncHb hsyncs fun c hc => ?_⟩
  · have hevent : nrEvent ≠ c := fun h => nrEvent_not_mem.1 (h ▸ hc)
    rw [h.sum_eq, ledger, total_append, total_append, total_eventPostings, if_neg hevent,
      total_pairs_of_not_mem known_syncHb hsyncs (names_disjoint c hc), add_zero, add_zero]
  · have hevent : nrEvent ≠ c := fun h => nrEvent_not_mem.2 (h ▸ hc)
    rw [h.sum_eq, ledger, total_append, total_append, total_eventPostings, if_neg hevent,
      total_pairs_of_not_mem known_eventRace hraces fun h => names_disjoint c h hc, add_zero, zero_add]

/-- A sum over pairs of places. -/
theorem sum_distance_le (hload : loadTrace file = .ok g)
    (hall : ∀ p ∈ set, ∃ first second, EarlierPair g p first second) {n : ℕ} (hn : g.totEvents.length ≤ n)
    (hm : file.length ≤ n) : ∑ p ∈ set, g.distance p ≤ n * n * n := by
  have hplaces : set ⊆ Finset.range n ×ˢ Finset.range n := by
    intro p hp
    obtain ⟨first, second, h⟩ := hall p hp
    have hi := (List.getElem?_eq_some_iff.mp h.first_eq).1
    have hj := (List.getElem?_eq_some_iff.mp h.second_eq).1
    exact Finset.mem_product.mpr ⟨Finset.mem_range.mpr (hi.trans_le hn), Finset.mem_range.mpr (hj.trans_le hn)⟩
  have hcard : (set.card : ℤ) ≤ n * n := by
    have hle := Finset.card_le_card hplaces
    rw [Finset.card_product, Finset.card_range] at hle
    exact_mod_cast hle
  -- a timestamp is a place in the file
  have hle : ∀ p ∈ set, g.distance p ≤ n := by
    intro p hp
    obtain ⟨first, second, h⟩ := hall p hp
    obtain ⟨e, k, he, -⟩ := exists_source_of_loaded hload h.second_eq
    have hts := (List.getElem?_eq_some_iff.mp he).1
    rw [distance_eq h]
    omega
  calc ∑ p ∈ set, g.distance p ≤ set.card • (n : ℤ) := Finset.sum_le_card_nsmul _ _ _ hle
    _ = set.card * n := nsmul_eq_mul _ _
    _ ≤ n * n * n := mul_le_mul_of_nonneg_right hcard (Int.natCast_nonneg n)

/-- **Short traces**: their totals fit. -/
theorem totalsFit_of_short (hload : loadTrace file = .ok g) (hra : RaceAnalyze.analyze g = .ok ra) {n : ℕ}
    (hn : g.totEvents.length ≤ n) (hm : file.length ≤ n) (hfit : n * n * n < 2 ^ 63) : TotalsFit g ra := by
  have hfit' : (n * n * n : ℤ) < 2 ^ 63 := by exact_mod_cast hfit
  have hone : n ≤ n * n * n := by
    obtain rfl | hpos := Nat.eq_zero_or_pos n
    · exact Nat.zero_le _
    · exact (Nat.le_mul_self n).trans (Nat.le_mul_of_pos_right _ hpos)
  exact ⟨(hn.trans hone).trans_lt hfit, (sum_distance_le hload (earlier_races hload hra) hn hm).trans_lt hfit',
    (sum_distance_le hload (earlier_syncs hload hra) hn hm).trans_lt hfit'⟩

/-- Threads 0 and 1 store to the same two bytes; then a mutex goes from the one to the other. -/
def twoRaces : List Event :=
  [.makeArrayAccessEvent 1 0 0 .st 16 2, .makeArrayAccessEvent 2 1 1 .st 16 2, .makeSyncOpEvent 3 2 0 .unlock 8,
    .makeSyncOpEvent 4 3 1 .lock 8]

theorem analyze_conserved_twoRaces : ∃ g ra, loadTrace twoRaces = .ok g ∧ RaceAnalyze.analyze g = .ok ra ∧
    (∀ p ∈ ra.getTotalRaceEventPair, CountedForward g p) ∧
      (∀ p ∈ ra.getTotalSyncHbEventPair, CountedForward g p) ∧
      ∃ found, analyze .byPlace g = .ok found ∧ Conserved eventRace found.summary ra.getTotalRaceEventPair ∧
        Conserved syncHb found.summary ra.getTotalSyncHbEventPair := by
  have hload : loadTrace twoRaces = .ok ⟨expandTrace twoRaces, {17, 16}, {8}⟩ := rfl
  obtain ⟨ra, hra⟩ : ∃ ra, RaceAnalyze.analyze ⟨expandTrace twoRaces, {17, 16}, {8}⟩ = .ok ra :=
    analyzeLoop_ok_iff.mpr (by decide)
  exact ⟨_, ra, hload, hra, analyze_conserved .byPlace hload hra
    (totalsFit_of_short hload hra (n := 6) (by decide) (by decide) (by decide))⟩

end Conservation

end DetectPass

end Schnauzer
