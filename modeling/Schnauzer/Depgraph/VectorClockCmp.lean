import Schnauzer.Depgraph.VectorClock
import Mathlib.Data.List.FinRange
import Mathlib.Order.Lattice
import Mathlib.Data.List.Lex

/-!
# The comparator of vector clocks

`VectorClockCmp`, which `VectorClock.h` prescribes for maps whose keys are clocks. It compares
two clocks as lists of ticks, lexicographically (`vectorClockCmp_iff`), and answers `true`
where the loop finds no difference: it is the order `≤` of these lists, where a `std::map`
needs `<`.

## What is proved

* `vectorClockCmp_laws` — the laws of a strict weak ordering: irreflexivity fails for every clock,
  asymmetry and the law for equal keys fail exactly for equal clocks, and transitivity holds.
-/

namespace Schnauzer

/-- The loop of `VectorClockCmp::operator()`. -/
def cmpLoop (vc₁ vc₂ : VectorClock) : List (Fin MAX_THREAD) → Bool
  | [] => true
  | i :: is =>
    if vc₁.getTick i < vc₂.getTick i then true
    else if vc₁.getTick i > vc₂.getTick i then false
    else cmpLoop vc₁ vc₂ is

/-- `VectorClockCmp::operator()`. -/
def vectorClockCmp (vc₁ vc₂ : VectorClock) : Bool := cmpLoop vc₁ vc₂ (List.finRange MAX_THREAD)

/-- The ticks of a clock, from the first thread to the last. -/
def VectorClock.ticks (vc : VectorClock) : List ℕ := (List.finRange MAX_THREAD).map vc.getTick

theorem cmpLoop_iff (vc₁ vc₂ : VectorClock) (is : List (Fin MAX_THREAD)) :
    cmpLoop vc₁ vc₂ is ↔ is.map vc₁.getTick ≤ is.map vc₂.getTick := by
  induction is with
  | nil => simp [cmpLoop]
  | cons i is ih =>
    rw [cmpLoop, List.map_cons, List.map_cons, ← not_lt, List.cons_lt_cons_iff]
    split_ifs with h₁ h₂
    · simp [h₁.not_gt, h₁.ne']
    · simp [h₂]
    · have heq : vc₂.getTick i = vc₁.getTick i := by omega
      rw [ih, ← not_lt]
      simp [heq]

/-- The comparator is the lexicographic order. -/
theorem vectorClockCmp_iff {vc₁ vc₂ : VectorClock} : vectorClockCmp vc₁ vc₂ ↔ vc₁.ticks ≤ vc₂.ticks :=
  cmpLoop_iff vc₁ vc₂ _

theorem ticks_inj {vc₁ vc₂ : VectorClock} :
    vc₁.ticks = vc₂.ticks ↔ ∀ i, vc₁.getTick i = vc₂.getTick i := by
  simp [VectorClock.ticks, List.map_inj_left]

/-- What `std::map` asks of a comparator, at three keys. -/
structure StrictWeakAt (lt : VectorClock → VectorClock → Bool) (a b c : VectorClock) : Prop where
  /-- No key is before itself. -/
  irrefl : ¬ lt a a
  /-- Of two keys, one at most is before the other. -/
  asymm : lt a b → ¬ lt b a
  /-- Before is transitive. -/
  trans : lt a b → lt b c → lt a c
  /-- The keys that are taken for the same are the equal ones. -/
  equiv_iff : (¬ lt a b ∧ ¬ lt b a) ↔ ∀ i, a.getTick i = b.getTick i

theorem vectorClockCmp_refl (a : VectorClock) : vectorClockCmp a a :=
  vectorClockCmp_iff.mpr le_rfl

theorem vectorClockCmp_total (a b : VectorClock) : vectorClockCmp a b ∨ vectorClockCmp b a := by
  rw [vectorClockCmp_iff, vectorClockCmp_iff]
  exact le_total _ _

theorem vectorClockCmp_asymm_iff (a b : VectorClock) :
    (vectorClockCmp a b → ¬ vectorClockCmp b a) ↔ ¬ ∀ i, a.getTick i = b.getTick i := by
  rw [vectorClockCmp_iff, vectorClockCmp_iff, ← ticks_inj, le_antisymm_iff]
  tauto

/-- **The laws of `VectorClockCmp`**: it is a strict weak ordering nowhere, since every clock is
before itself. Asymmetry and the law for equal keys hold exactly for clocks that differ;
transitivity always holds. -/
theorem vectorClockCmp_laws (a b c : VectorClock) :
    ¬ StrictWeakAt vectorClockCmp a b c ∧ vectorClockCmp a a ∧
      ((vectorClockCmp a b → ¬ vectorClockCmp b a) ↔ ¬ ∀ i, a.getTick i = b.getTick i) ∧
      (vectorClockCmp a b → vectorClockCmp b c → vectorClockCmp a c) ∧
      (((¬ vectorClockCmp a b ∧ ¬ vectorClockCmp b a) ↔ ∀ i, a.getTick i = b.getTick i) ↔
        ¬ ∀ i, a.getTick i = b.getTick i) := by
  refine ⟨fun h => h.irrefl (vectorClockCmp_refl a), vectorClockCmp_refl a, vectorClockCmp_asymm_iff a b,
    fun hab hbc => ?_, ?_⟩
  · rw [vectorClockCmp_iff] at hab hbc ⊢
    exact hab.trans hbc
  · have htotal := vectorClockCmp_total a b
    tauto

/-- The clock that is zero comes before itself. -/
theorem vectorClockCmp_zero : ¬ ∀ a b c, StrictWeakAt vectorClockCmp a b c := fun h =>
  (h .zero .zero .zero).irrefl (by decide)

end Schnauzer
