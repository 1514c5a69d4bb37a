import Mathlib.Data.Nat.Find
import Mathlib.Order.Basic

/-!
# Infinite runs

A run `e` without end, and what has to happen in it: things that happen again and again, and a
rank that no step raises and that falls again and again.

## What is proved

* `exists_of_rank` — a goal is reached if away from it the rank falls sooner or later.
-/

namespace Liveness

universe u

variable {S : Type u} {e : ℕ → S} {P : ℕ → Prop}

/-- Something happens again and again. -/
def Recurs (P : ℕ → Prop) : Prop := ∀ n, ∃ m, n ≤ m ∧ P m

/-- The next time that it happens. -/
theorem Recurs.next (h : Recurs P) (n : ℕ) : ∃ m, n ≤ m ∧ P m ∧ ∀ k, n ≤ k → k < m → ¬ P k := by
  classical
  have hex := h n
  refine ⟨Nat.find hex, (Nat.find_spec hex).1, (Nat.find_spec hex).2, fun k hk hlt hP => ?_⟩
  exact Nat.find_min hex hlt ⟨hk, hP⟩

/-- What no step from `n` to `m` changes. -/
theorem eq_of_steps {α : Type} {f : S → α} {n m : ℕ} (hnm : n ≤ m)
    (h : ∀ k, n ≤ k → k < m → f (e (k + 1)) = f (e k)) : f (e m) = f (e n) := by
  induction m, hnm using Nat.le_induction with
  | base => rfl
  | succ m hnm ih =>
    exact (h m hnm (Nat.lt_succ_self m)).trans (ih fun k hk hlt => h k hk (Nat.lt_succ_of_lt hlt))

/-- What no step lowers. -/
theorem le_of_steps {f : S → ℕ} (h : ∀ n, f (e n) ≤ f (e (n + 1))) {n m : ℕ} (hnm : n ≤ m) :
    f (e n) ≤ f (e m) := by
  induction m, hnm using Nat.le_induction with
  | base => exact le_rfl
  | succ m hnm ih => exact ih.trans (h m)

/-- What no step raises. -/
theorem ge_of_steps {f : S → ℕ} (h : ∀ n, f (e (n + 1)) ≤ f (e n)) {n m : ℕ} (hnm : n ≤ m) :
    f (e m) ≤ f (e n) := by
  induction m, hnm using Nat.le_induction with
  | base => exact le_rfl
  | succ m hnm ih => exact (h m).trans ih

/-- **Goals**: a rank that falls sooner or later as long as the goal is not reached. -/
theorem exists_of_rank {goal : S → Prop} (rank : S → ℕ)
    (h : ∀ n, ¬ goal (e n) → ∃ m, n ≤ m ∧ rank (e m) < rank (e n)) (n : ℕ) : ∃ m, n ≤ m ∧ goal (e m) := by
  induction hr : rank (e n) using Nat.strong_induction_on generalizing n with
  | _ r ih =>
    subst hr
    by_cases hg : goal (e n)
    · exact ⟨n, le_rfl, hg⟩
    · obtain ⟨m, hnm, hlt⟩ := h n hg
      obtain ⟨k, hmk, hk⟩ := ih _ hlt m rfl
      exact ⟨k, hnm.trans hmk, hk⟩

end Liveness
