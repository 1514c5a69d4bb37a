import Schnauzer.Common.Event
import Mathlib.Data.Fin.Basic
import Mathlib.Data.Fintype.Basic
import Mathlib.Data.List.FinRange
import Mathlib.Order.Lattice
import Mathlib.Order.Basic
import Mathlib.Logic.Function.Basic

/-!
# Vector clocks

`analyze/depgraph/VectorClock`. A clock is `MAX_THREAD` ticks; the source keeps them in
a vector of that size and the `assert`s in `getTick` and `incTick` guard the index, which
here is a `Fin MAX_THREAD`. Ticks are unbounded.

The comparisons are the loops of the source; `le_iff`, `isConcurrentWith_iff` say what
they compute.
-/

namespace Schnauzer

/-- `VectorClock::MAX_THREAD`. -/
def MAX_THREAD : ℕ := 50

instance : NeZero MAX_THREAD := ⟨Nat.succ_ne_zero 49⟩

/-- `VectorClock`. -/
@[ext]
structure VectorClock where
  /-- `getTick`. -/
  getTick : Fin MAX_THREAD → ℕ

namespace VectorClock

/-- `VectorClock::VectorClock`. -/
def zero : VectorClock := ⟨fun _ => 0⟩

/-- `VectorClock::incTick`. -/
def incTick (vc : VectorClock) (t : Fin MAX_THREAD) : VectorClock :=
  ⟨fun i => if i = t then vc.getTick i + 1 else vc.getTick i⟩

/-- `VectorClock::merge`. -/
def merge (vc other : VectorClock) : VectorClock :=
  ⟨fun i => max (vc.getTick i) (other.getTick i)⟩

/-- `VectorClock::operator<=`. -/
def le (vc other : VectorClock) : Bool :=
  (List.finRange MAX_THREAD).all fun i => !(decide (vc.getTick i > other.getTick i))

/-- `VectorClock::isConcurrentWith`. -/
def isConcurrentWith (vc other : VectorClock) : Bool := !(vc.le other || other.le vc)

@[simp] theorem zero_getTick (i : Fin MAX_THREAD) : zero.getTick i = 0 := rfl

@[simp] theorem merge_getTick (vc other : VectorClock) (i : Fin MAX_THREAD) :
    (vc.merge other).getTick i = max (vc.getTick i) (other.getTick i) := rfl

@[simp] theorem incTick_self (vc : VectorClock) (t : Fin MAX_THREAD) :
    (vc.incTick t).getTick t = vc.getTick t + 1 := by simp [incTick]

theorem incTick_of_ne (vc : VectorClock) {t i : Fin MAX_THREAD} (h : i ≠ t) :
    (vc.incTick t).getTick i = vc.getTick i := by simp [incTick, h]

theorem getTick_le_incTick (vc : VectorClock) (t i : Fin MAX_THREAD) :
    vc.getTick i ≤ (vc.incTick t).getTick i := by
  unfold incTick
  dsimp only
  split_ifs <;> omega

theorem incTick_le (vc : VectorClock) (t i : Fin MAX_THREAD) :
    (vc.incTick t).getTick i ≤ vc.getTick i + 1 := by
  unfold incTick
  dsimp only
  split_ifs <;> omega

/-- `<=` compares tick by tick. -/
theorem le_iff {vc other : VectorClock} : vc.le other ↔ ∀ i, vc.getTick i ≤ other.getTick i := by
  simp [le, List.all_eq_true]

/-- Concurrent clocks are not comparable. -/
theorem isConcurrentWith_iff {vc other : VectorClock} :
    vc.isConcurrentWith other ↔ ¬ vc.le other ∧ ¬ other.le vc := by
  simp [isConcurrentWith]

theorem merge_self (vc : VectorClock) : vc.merge vc = vc := by
  ext i
  simp

end VectorClock

end Schnauzer
