import Mathlib.Data.Set.Insert
import Mathlib.Data.Set.Lattice
import Mathlib.Order.Interval.Set.Basic

/-!
# A log whose slots are reserved before they are filled

Several writers share a log. A writer reserves slots by advancing the common size, and
fills a slot that it holds later on, in a step of its own. `Partition` says that no slot is
lost and none is given twice: a slot below the size is filled, or one writer holds it.

## What is proved

* `Partition.reserve`, `Partition.fill` — the two steps keep it.
* `Partition.filled_of_idle` — when no writer holds a slot, every slot is filled.
-/

namespace SlotLog

universe u

variable {W : Type u}

/-- Each slot below `size` is filled, or held by exactly one writer. -/
structure Partition (size : ℕ) (filled : ℕ → Prop) (held : W → Set ℕ) : Prop where
  /-- Only slots below the size are filled. -/
  filled_lt : ∀ n, filled n → n < size
  /-- Only slots below the size are held. -/
  held_lt : ∀ w n, n ∈ held w → n < size
  /-- A slot that is held is not filled. -/
  not_filled : ∀ w n, n ∈ held w → ¬ filled n
  /-- No two writers hold one slot. -/
  unique : ∀ w w' n, n ∈ held w → n ∈ held w' → w = w'
  /-- No slot is lost. -/
  cover : ∀ n < size, filled n ∨ ∃ w, n ∈ held w

variable {size k n : ℕ} {filled filled' : ℕ → Prop} {held held' : W → Set ℕ} {w : W}

/-- An empty log. -/
theorem Partition.empty (hf : ∀ n, ¬ filled n) (hh : ∀ w, held w = ∅) : Partition 0 filled held where
  filled_lt := fun n h => absurd h (hf n)
  held_lt := fun w n h => by simp [hh w] at h
  not_filled := fun w n h => by simp [hh w] at h
  unique := fun w _ n h => by simp [hh w] at h
  cover := fun n h => absurd h (Nat.not_lt_zero n)

/-- Nothing changes when every writer holds what it held. -/
theorem Partition.congr (h : Partition size filled held) (hh : ∀ w, held' w = held w) :
    Partition size filled held' := by
  have : held' = held := funext hh
  rwa [this]

/-- **Reserving**: the size moves on by `k`, and `w` holds the new slots. -/
theorem Partition.reserve (h : Partition size filled held)
    (hw : ∀ n, n ∈ held' w ↔ n ∈ held w ∨ size ≤ n ∧ n < size + k)
    (hother : ∀ w', w' ≠ w → held' w' = held w') : Partition (size + k) filled held' := by
  have hold : ∀ w' n, n ∈ held' w' → n ∈ held w' ∨ w' = w ∧ size ≤ n ∧ n < size + k := by
    intro w' n hn
    by_cases hw' : w' = w
    · subst hw'
      exact ((hw n).mp hn).imp_right fun h => ⟨rfl, h⟩
    · exact Or.inl (hother w' hw' ▸ hn)
  refine ⟨fun n hn => ?_, fun w' n hn => ?_, fun w' n hn hf => ?_, fun w₁ w₂ n h₁ h₂ => ?_,
    fun n hn => ?_⟩
  · have := h.filled_lt n hn
    omega
  · rcases hold w' n hn with hn | ⟨-, hn⟩
    · have := h.held_lt w' n hn
      omega
    · omega
  · rcases hold w' n hn with hn | ⟨-, hn⟩
    · exact h.not_filled w' n hn hf
    · have := h.filled_lt n hf
      omega
  · rcases hold w₁ n h₁ with h₁ | ⟨rfl, h₁⟩ <;> rcases hold w₂ n h₂ with h₂ | ⟨rfl, h₂⟩
    · exact h.unique w₁ w₂ n h₁ h₂
    · have := h.held_lt w₁ n h₁
      omega
    · have := h.held_lt w₂ n h₂
      omega
    · rfl
  · by_cases hlt : n < size
    · apply (h.cover n hlt).imp_right
      rintro ⟨w', hn'⟩
      by_cases hw' : w' = w
      · subst hw'
        exact ⟨w', (hw n).mpr (Or.inl hn')⟩
      · exact ⟨w', hother w' hw' ▸ hn'⟩
    · exact Or.inr ⟨w, (hw n).mpr (Or.inr ⟨by omega, hn⟩)⟩

/-- **Filling** a slot that is held. -/
theorem Partition.fill (h : Partition size filled held) (hn : n ∈ held w)
    (hf : ∀ m, filled' m ↔ m = n ∨ filled m) (hw : ∀ m, m ∈ held' w ↔ m ∈ held w ∧ m ≠ n)
    (hother : ∀ w', w' ≠ w → held' w' = held w') : Partition size filled' held' := by
  have hold : ∀ w' m, m ∈ held' w' → m ∈ held w' ∧ m ≠ n := by
    intro w' m hm
    by_cases hw' : w' = w
    · subst hw'
      exact (hw m).mp hm
    · rw [hother w' hw'] at hm
      refine ⟨hm, ?_⟩
      rintro rfl
      exact hw' (h.unique w' w m hm hn)
  refine ⟨fun m hm => ?_, fun w' m hm => h.held_lt w' m (hold w' m hm).1, fun w' m hm hfm => ?_,
    fun w₁ w₂ m h₁ h₂ => h.unique w₁ w₂ m (hold w₁ m h₁).1 (hold w₂ m h₂).1, fun m hm => ?_⟩
  · rcases (hf m).mp hm with rfl | hm
    · exact h.held_lt w m hn
    · exact h.filled_lt m hm
  · obtain ⟨hm, hne⟩ := hold w' m hm
    rcases (hf m).mp hfm with rfl | hfm
    · exact hne rfl
    · exact h.not_filled w' m hm hfm
  · rw [hf m]
    by_cases hmn : m = n
    · exact Or.inl (Or.inl hmn)
    · rcases h.cover m hm with hfm | ⟨w', hm'⟩
      · exact Or.inl (Or.inr hfm)
      · refine Or.inr ⟨w', ?_⟩
        by_cases hw' : w' = w
        · subst hw'
          exact (hw m).mpr ⟨hm', hmn⟩
        · exact hother w' hw' ▸ hm'

/-- **When no slot is held** every slot is filled. -/
theorem Partition.filled_of_idle (h : Partition size filled held) (hidle : ∀ w, held w = ∅)
    {n : ℕ} (hn : n < size) : filled n := by
  rcases h.cover n hn with hf | ⟨w, hw⟩
  · exact hf
  · simp [hidle w] at hw

end SlotLog
