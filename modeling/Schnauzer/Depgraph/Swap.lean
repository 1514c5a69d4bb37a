import Schnauzer.Depgraph.Races
import Schnauzer.Lib.CausalHistory

/-!
# Independent events

Two adjacent events of different threads that have nothing to do with each other may be logged in either order.

## What is proved

* `races_swap` — the pairs reported are those of the trace with the two events in the other order.
-/

namespace Schnauzer

open CausalOrder RaceAnalyze

/-- The event has an address: it is no `CREATE` or `JOIN`. -/
def Event.touches (e : Event) : Prop := e.isAccessEvent ∨ e.isSyncOpEvent

instance (e : Event) : Decidable e.touches := inferInstanceAs (Decidable (_ ∨ _))

/-- Two events of different threads that are independent. -/
structure Independent (e f : Event) : Prop where
  threads : e.tid ≠ f.tid
  /-- They do not touch one address, unless both are loads. -/
  address : e.touches → f.touches → e.varAddr = f.varAddr → e.opTy = .ld ∧ f.opTy = .ld
  /-- The remote thread of the first has nothing to do with the second. -/
  remote : e.isThreadOpEvent → e.remoteTid ≠ f.tid ∧ (f.isThreadOpEvent → e.remoteTid ≠ f.remoteTid)
  /-- The remote thread of the second has nothing to do with the first. -/
  remote' : f.isThreadOpEvent → f.remoteTid ≠ e.tid ∧ (e.isThreadOpEvent → f.remoteTid ≠ e.remoteTid)

theorem Independent.symm {e f : Event} (h : Independent e f) : Independent f e where
  threads := h.threads.symm
  address := fun hf he ha => (h.address he hf ha.symm).symm
  remote := h.remote'
  remote' := h.remote

/-- The first passes nothing to the second. -/
theorem Independent.not_reads {e f : Event} (h : Independent e f) : ∀ x ∈ e.writes, x ∉ f.reads := by
  have htouch : ∀ {g : Event}, g.isSyncRelEvent ∨ g.isSyncAcqEvent → g.touches ∧ g.opTy ≠ .ld := by
    rintro g (hg | hg)
    · refine ⟨Or.inr (Event.isSyncOpEvent_iff.mpr (Or.inr (Or.inl hg))), ?_⟩
      rcases Event.isSyncRelEvent_iff.mp hg with h | h | h <;> simp [h]
    · refine ⟨Or.inr (Event.isSyncOpEvent_iff.mpr (Or.inl hg)), ?_⟩
      rcases Event.isSyncAcqEvent_iff.mp hg with h | h | h <;> simp [h]
  intro x hx hx'
  cases x with
  | thr t =>
    rw [Event.thr_mem_writes] at hx
    rw [Event.thr_mem_reads] at hx'
    rcases hx with hx | ⟨hc, hx⟩ <;> rcases hx' with hx' | ⟨hj, hx'⟩
    · exact h.threads (hx.symm.trans hx')
    · exact (h.remote' (Event.isThreadOpEvent_iff.mpr (Or.inr hj))).1 (hx'.symm.trans hx)
    · exact (h.remote (Event.isThreadOpEvent_iff.mpr (Or.inl hc))).1 (hx.symm.trans hx')
    · exact (h.remote (Event.isThreadOpEvent_iff.mpr (Or.inl hc))).2
        (Event.isThreadOpEvent_iff.mpr (Or.inr hj)) (hx.symm.trans hx')
  | var a =>
    rw [Event.var_mem_writes] at hx
    rw [Event.var_mem_reads] at hx'
    obtain ⟨hte, hne⟩ := htouch (Or.inl hx.1)
    exact hne (h.address hte (htouch (Or.inr hx'.1)).1 (hx.2.symm.trans hx'.2)).1

/-- `evts'` is `evts` with the events at the places `k` and `k + 1` swapped. -/
structure SwappedAt (k : ℕ) (e f : Event) (evts evts' : List Event) : Prop where
  first : evts[k]? = some e
  second : evts[k + 1]? = some f
  get : ∀ i, evts'[Equiv.swap k (k + 1) i]? = evts[i]?

section Swap

variable {k : ℕ} {e f : Event} {evts evts' : List Event} {a : Addr} {i j : ℕ}

theorem SwappedAt.symm (h : SwappedAt k e f evts evts') : SwappedAt k f e evts' evts where
  first := by
    rw [← h.second, ← h.get (k + 1), Equiv.swap_apply_right]
  second := by
    rw [← h.first, ← h.get k, Equiv.swap_apply_left]
  get := fun i => by
    rw [← h.get, Equiv.swap_apply_self]

/-- A list with two adjacent elements swapped. -/
theorem swappedAt_append (xs ys : List Event) (e f : Event) :
    SwappedAt xs.length e f (xs ++ e :: f :: ys) (xs ++ f :: e :: ys) where
  first := by simp
  second := by simp
  get := fun i => by
    rcases Nat.lt_trichotomy i xs.length with hi | rfl | hi
    · rw [Equiv.swap_apply_of_ne_of_ne (by omega) (by omega), List.getElem?_append_left hi,
        List.getElem?_append_left hi]
    · simp
    · rcases Nat.eq_or_lt_of_le hi with rfl | hi'
      · simp
      · obtain ⟨n, rfl⟩ := Nat.exists_eq_add_of_le hi'
        rw [Equiv.swap_apply_of_ne_of_ne (by omega) (by omega), List.getElem?_append_right (by omega),
          List.getElem?_append_right (by omega), show xs.length + 1 + 1 + n - xs.length = n + 2 by omega]
        rfl

/-- Two accesses to one address, one of them a store, are not the two that are swapped. -/
theorem SwappedAt.not_conflict (h : SwappedAt k e f evts evts') (hind : Independent e f) {c d : Event}
    (hc : evts[i]? = some c) (hd : evts[j]? = some d) (hca : c.isAccessEvent) (hda : d.isAccessEvent)
    (ha : c.varAddr = d.varAddr) (hst : c.opTy = .st ∨ d.opTy = .st) : ¬ (i = k ∧ j = k + 1) := by
  rintro ⟨rfl, rfl⟩
  cases hc.symm.trans h.first
  cases hd.symm.trans h.second
  obtain ⟨hle, hlf⟩ := hind.address (Or.inl hca) (Or.inl hda) ha
  rcases hst with hst | hst
  · simp [hle] at hst
  · simp [hlf] at hst

theorem SwappedAt.happensBefore (h : SwappedAt k e f evts evts') (hind : Independent e f)
    (hb : HappensBefore evts i j) : HappensBefore evts' (Equiv.swap k (k + 1) i) (Equiv.swap k (k + 1) j) := by
  refine @BeforeIn.swap _ _ Event.reads Event.writes _ _ _ _ _ h.get (fun l l' hl hl' => ?_) hb
  cases hl.symm.trans h.first
  cases hl'.symm.trans h.second
  exact hind.not_reads

theorem SwappedAt.unorderedConflict (h : SwappedAt k e f evts evts') (hind : Independent e f)
    (hun : UnorderedConflict evts a i j) :
    UnorderedConflict evts' a (Equiv.swap k (k + 1) i) (Equiv.swap k (k + 1) j) := by
  obtain ⟨hlt, ⟨c, d, hc, hd, hca, hda, hac, had, hst⟩, hnot⟩ := hun
  refine ⟨swap_lt_swap hlt (h.not_conflict hind hc hd hca hda (hac.trans had.symm) hst),
    ⟨c, d, (h.get i).trans hc, (h.get j).trans hd, hca, hda, hac, had, hst⟩, fun hb => hnot ?_⟩
  simpa using h.symm.happensBefore hind.symm hb

theorem SwappedAt.noStoreBetween (h : SwappedAt k e f evts evts') (hind : Independent e f)
    (hun : UnorderedConflict evts a i j) (hno : NoStoreBetween evts a i j) :
    NoStoreBetween evts' a (Equiv.swap k (k + 1) i) (Equiv.swap k (k + 1) j) := by
  obtain ⟨-, ⟨c, d, hc, hd, hca, hda, hac, had, -⟩, -⟩ := hun
  intro l g hil hlj hg hst ha
  have hga : g.isAccessEvent := Event.isAccessEvent_iff.mpr (Or.inr hst)
  have hl : evts[Equiv.swap k (k + 1) l]? = some g := (h.symm.get l).trans hg
  -- the store is between the two in the other order too
  have hlt := swap_lt_swap hil (h.symm.not_conflict hind.symm ((h.get i).trans hc) hg hca hga
    (hac.trans ha.symm) (Or.inr hst))
  have hlt' := swap_lt_swap hlj (h.symm.not_conflict hind.symm hg ((h.get j).trans hd) hga hda
    (ha.trans had.symm) (Or.inl hst))
  rw [Equiv.swap_apply_self] at hlt hlt'
  exact hno _ g hlt hlt' hl hst ha

/-- A pair that is reported is reported after the swap. -/
theorem SwappedAt.pairs (h : SwappedAt k e f evts evts') (hind : Independent e f) {g g' : DepGraph}
    (hg : g.totEvents = evts) (hg' : g'.totEvents = evts') {ra ra' : RaceAnalyze} (hra : analyze g = .ok ra)
    (hra' : analyze g' = .ok ra') (hmem : (i, j) ∈ ra.getTotalRaceEventPair) :
    (Equiv.swap k (k + 1) i, Equiv.swap k (k + 1) j) ∈ ra'.getTotalRaceEventPair := by
  obtain ⟨a, hun, hno⟩ := (mem_pairs hra).mp hmem
  rw [hg] at hun hno
  refine (mem_pairs hra').mpr ⟨a, ?_, ?_⟩
  · rw [hg']
    exact h.unorderedConflict hind hun
  · rw [hg']
    exact h.noStoreBetween hind hun hno

/-- **Detection depends only on the partial order of the trace.** Two adjacent independent events of an accepted trace
are swapped: the trace is accepted, and its pairs are the same pairs of events, each in the same order. -/
theorem races_swap (xs ys : List Event) (e f : Event) (hind : Independent e f) (sharedVars syncVars : Finset Addr)
    {ra : RaceAnalyze} (h : analyze ⟨xs ++ e :: f :: ys, sharedVars, syncVars⟩ = .ok ra) :
    ∃ ra', analyze ⟨xs ++ f :: e :: ys, sharedVars, syncVars⟩ = .ok ra' ∧
      ∀ i j, (i, j) ∈ ra.getTotalRaceEventPair ↔
        (Equiv.swap xs.length (xs.length + 1) i, Equiv.swap xs.length (xs.length + 1) j) ∈
          ra'.getTotalRaceEventPair := by
  obtain ⟨ra', h'⟩ : ∃ ra', analyze ⟨xs ++ f :: e :: ys, sharedVars, syncVars⟩ = .ok ra' := by
    refine analyzeLoop_ok_iff.mpr fun c hc => analyzeLoop_ok_iff.mp ⟨ra, h⟩ c ?_
    simp only [List.mem_append, List.mem_cons] at hc ⊢
    tauto
  have hswap := swappedAt_append xs ys e f
  refine ⟨ra', h', fun i j => ⟨hswap.pairs hind rfl rfl h h', fun hmem => ?_⟩⟩
  simpa using hswap.symm.pairs hind.symm rfl rfl h' h hmem

/-- A load and a store of two threads, to different addresses, in front of `racyTrace`. -/
theorem races_swap_racyTrace :
    ∃ ra, analyze ⟨[.makeVarAccessEvent 1 0 1 .ld 16, .makeVarAccessEvent 1 1 2 .st 24] ++ racyTrace, ∅, ∅⟩ = .ok ra ∧
      ∃ ra', analyze ⟨[.makeVarAccessEvent 1 1 2 .st 24, .makeVarAccessEvent 1 0 1 .ld 16] ++ racyTrace, ∅, ∅⟩ =
        .ok ra' ∧ ∀ i j, (i, j) ∈ ra.getTotalRaceEventPair ↔
          (Equiv.swap 0 1 i, Equiv.swap 0 1 j) ∈ ra'.getTotalRaceEventPair := by
  obtain ⟨ra, h⟩ := analyzeLoop_ok_iff.mpr (show ∀ e ∈ [Event.makeVarAccessEvent 1 0 1 .ld 16,
    .makeVarAccessEvent 1 1 2 .st 24] ++ racyTrace, Accepted (fun _ => false) e by decide)
  exact ⟨ra, h, races_swap [] racyTrace _ _ ⟨by decide, by decide, by decide, by decide⟩ ∅ ∅ h⟩

end Swap

end Schnauzer
