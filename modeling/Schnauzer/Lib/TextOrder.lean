import Mathlib.Data.Char
import Mathlib.Data.List.Infix
import Mathlib.Data.List.Lex
import Mathlib.Order.Lattice
import Schnauzer.Lib.Text

/-!
# The order of texts

Texts are compared character by character. Two texts that begin with numbers are in the order of the
numbers where these are written in the same number of digits.

## What is proved

* `append_lt_append_iff_of_apart`, `append_lt_append_iff_of_length` — what decides the order of two texts.
* `pad2_append_lt` — numbers of two digits.
* `not_prefix_integer` — an integer that is followed by a sign ends there.
-/

namespace Text

section Order

variable {α : Type} [LinearOrder α] {u v x y : List α}

/-- Where neither beginning is one of the other, the beginnings decide. -/
theorem append_lt_append_iff_of_apart (huv : ¬ u <+: v) (hvu : ¬ v <+: u) : u ++ x < v ++ y ↔ u < v := by
  induction u generalizing v with
  | nil => exact absurd List.nil_prefix huv
  | cons a u ih =>
    match v with
    | [] => exact absurd List.nil_prefix hvu
    | b :: v =>
      rw [List.cons_append, List.cons_append, List.cons_lt_cons_iff, List.cons_lt_cons_iff]
      refine or_congr_right (and_congr_right fun hab => ?_)
      subst hab
      exact ih (fun h => huv (List.cons_prefix_cons.mpr ⟨rfl, h⟩)) fun h => hvu (List.cons_prefix_cons.mpr ⟨rfl, h⟩)

theorem append_lt_append_iff_self : u ++ x < u ++ y ↔ x < y := by
  induction u with
  | nil => rfl
  | cons a u ih =>
    rw [List.cons_append, List.cons_append, List.cons_lt_cons_iff, ih]
    simp

/-- Beginnings of the same length decide where they differ. -/
theorem append_lt_append_iff_of_length (h : u.length = v.length) :
    u ++ x < v ++ y ↔ u < v ∨ u = v ∧ x < y := by
  obtain rfl | hne := eq_or_ne u v
  · rw [append_lt_append_iff_self]
    simp
  · have huv : ¬ u <+: v := fun hp => hne (hp.eq_of_length h)
    have hvu : ¬ v <+: u := fun hp => hne (hp.eq_of_length h.symm).symm
    rw [append_lt_append_iff_of_apart huv hvu]
    simp [hne]

end Order

variable {a b n : ℕ} {c : Char} {x y : List Char}

/-! ### Two digits -/

/-- `%02d`. -/
def pad2 (n : ℕ) : List Char := if n < 10 then '0' :: decimal n else decimal n

theorem digitChar_lt_digitChar : ∀ a < 10, ∀ b < 10, (a.digitChar < b.digitChar ↔ a < b) := by decide

theorem digitChar_inj : ∀ a < 10, ∀ b < 10, (a.digitChar = b.digitChar ↔ a = b) := by decide

theorem pad2_eq (hn : n < 100) : pad2 n = [(n / 10).digitChar, (n % 10).digitChar] := by
  unfold pad2 decimal
  split_ifs with h
  · rw [Nat.toDigits_of_lt_base h, Nat.div_eq_of_lt h, Nat.mod_eq_of_lt h]
    rfl
  · rw [Nat.toDigits_of_base_le (by decide) (not_lt.mp h), Nat.toDigits_of_lt_base (by omega)]
    rfl

theorem not_mem_pad2 (hc : c.isDigit = false) : c ∉ pad2 n := by
  unfold pad2
  split_ifs
  · rintro (_ | ⟨_, h⟩)
    · cases hc
    · exact not_mem_decimal hc h
  · exact not_mem_decimal hc

/-- **Two digits** decide like the numbers. -/
theorem pad2_append_lt (ha : a < 100) (hb : b < 100) : pad2 a ++ x < pad2 b ++ y ↔ a < b ∨ a = b ∧ x < y := by
  have hlt : pad2 a < pad2 b ↔ a < b := by
    rw [pad2_eq ha, pad2_eq hb, List.cons_lt_cons_iff, List.cons_lt_cons_iff,
      digitChar_lt_digitChar _ (by omega) _ (by omega), digitChar_lt_digitChar _ (by omega) _ (by omega),
      digitChar_inj _ (by omega) _ (by omega)]
    simp
    omega
  have heq : pad2 a = pad2 b ↔ a = b := by
    rw [pad2_eq ha, pad2_eq hb, List.cons_eq_cons, List.cons_eq_cons, digitChar_inj _ (by omega) _ (by omega),
      digitChar_inj _ (by omega) _ (by omega)]
    simp only [and_true]
    omega
  have hlength : (pad2 a).length = (pad2 b).length := by
    rw [pad2_eq ha, pad2_eq hb]
    rfl
  refine (append_lt_append_iff_of_length hlength).trans ?_
  rw [heq]
  exact or_congr_left hlt

/-! ### Integers -/

/-- `%d`. -/
def integer : ℤ → List Char
  | .ofNat n => decimal n
  | .negSucc n => '-' :: decimal (n + 1)

theorem not_mem_integer {i : ℤ} (hc : c.isDigit = false) (hsign : c ≠ '-') : c ∉ integer i := by
  match i with
  | .ofNat n => exact not_mem_decimal hc
  | .negSucc n => exact fun h => (List.mem_cons.mp h).elim hsign (not_mem_decimal hc)

/-- What is before the first of a character. -/
theorem eq_of_prefix_append {u v : List Char} (hu : c ∉ u) (hv : c ∉ v) (h : u ++ [c] <+: v ++ [c]) : u = v := by
  induction u generalizing v with
  | nil =>
    match v with
    | [] => rfl
    | d :: v =>
      rw [List.nil_append, List.cons_append, List.cons_prefix_cons] at h
      exact absurd (h.1 ▸ List.mem_cons_self) hv
  | cons a u ih =>
    rw [List.mem_cons, not_or] at hu
    match v with
    | [] =>
      rw [List.cons_append, List.nil_append, List.cons_prefix_cons] at h
      exact absurd h.1.symm hu.1
    | d :: v =>
      rw [List.cons_append, List.cons_append, List.cons_prefix_cons] at h
      rw [h.1, ih hu.2 (fun hc => hv (List.mem_cons_of_mem _ hc)) h.2]

/-- The first character of a number is a digit. -/
theorem decimal_ne_sign {u : List Char} : decimal n ++ u ≠ '-' :: x := fun h => by
  obtain ⟨d, ds, hd⟩ := List.exists_cons_of_ne_nil (decimal_ne_nil (n := n))
  have hdigit : d.isDigit := isDigit_of_mem_decimal (n := n) (hd ▸ List.mem_cons_self)
  rw [hd, List.cons_append] at h
  rw [(List.cons.inj h).1] at hdigit
  cases hdigit

/-- **An integer ends at the sign after it.** -/
theorem not_prefix_integer {i j : ℤ} (hij : i ≠ j) : ¬ integer i ++ ['-'] <+: integer j ++ ['-'] := by
  intro h
  have hsign : ∀ m, '-' ∉ decimal m := fun m => not_mem_decimal rfl
  match i, j, h with
  | .ofNat m, .ofNat n, h => exact hij (congrArg _ (decimal_injective (eq_of_prefix_append (hsign m) (hsign n) h)))
  | .negSucc m, .negSucc n, h =>
    have heq := eq_of_prefix_append (hsign _) (hsign _) (List.cons_prefix_cons.mp h).2
    exact hij (congrArg _ (Nat.succ.inj (decimal_injective heq)))
  | .ofNat m, .negSucc n, ⟨t, h⟩ =>
    have h : decimal m ++ (['-'] ++ t) = '-' :: (decimal (n + 1) ++ ['-']) := by
      rw [← List.append_assoc]
      exact h
    exact decimal_ne_sign h
  | .negSucc m, .ofNat n, ⟨t, h⟩ => exact decimal_ne_sign h.symm

end Text
