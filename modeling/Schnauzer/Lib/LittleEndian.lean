import Mathlib.Data.Nat.Digits.Defs

/-!
# Fields of fixed width

The number in `w` digits of base `b`, the lowest first, and the digits of a number.

## What is proved

* `ofDigits_digit` — a number is what its digits say.
* `digit_ofDigits` — the digits are those that have been read.
-/

namespace LittleEndian

variable {b w : ℕ}

/-- The digits of `n` are the number again. -/
theorem ofDigits_digit (b n w : ℕ) :
    Nat.ofDigits b ((List.range w).map fun i => n / b ^ i % b) = n % b ^ w := by
  induction w with
  | zero => simp [Nat.mod_one]
  | succ w ih =>
    rw [List.range_succ, List.map_append, Nat.ofDigits_append, ih]
    simp [Nat.ofDigits_singleton, Nat.mod_pow_succ]

/-- A digit of the number is the digit that it was read from. -/
theorem digit_ofDigits (f : ℕ → ℕ) (hf : ∀ i, f i < b) {i : ℕ} (hi : i < w) :
    Nat.ofDigits b ((List.range w).map f) / b ^ i % b = f i := by
  have hb : 0 < b := (Nat.zero_le _).trans_lt (hf 0)
  induction w generalizing f i with
  | zero => exact absurd hi (Nat.not_lt_zero i)
  | succ w ih =>
    rw [List.range_succ_eq_map, List.map_cons, List.map_map, Nat.ofDigits_cons]
    cases i with
    | zero => simp [Nat.mod_eq_of_lt (hf 0)]
    | succ i =>
      rw [pow_succ', ← Nat.div_div_eq_div_mul, Nat.add_mul_div_left _ _ hb, Nat.div_eq_of_lt (hf 0), Nat.zero_add]
      exact ih (f ∘ Nat.succ) (fun i => hf i.succ) (Nat.lt_of_succ_lt_succ hi)

end LittleEndian
