import Mathlib.Algebra.Ring.Nat
import Mathlib.Data.Int.Basic
import Mathlib.Data.List.DropRight
import Mathlib.Data.List.Basic
import Mathlib.Tactic.SplitIfs

/-!
# Text that is read line by line

A text is a list of characters. A reader takes it apart into lines, a line into words and a word at a
separator; numbers are written in decimal digits.

## What is proved

* `lines_append` — the first line of a text.
* `words_append`, `words_word`, `strip_line` — the words of a line.
* `decimal_injective`, `number_decimal` — a number is read as it was written.
* `firstNumber_append` — the first number in a line.
-/

namespace Text

/-- White space. -/
def isSpace (c : Char) : Bool :=
  c = ' ' || c = '\t' || c = '\n' || c = '\r' || c = Char.ofNat 11 || c = Char.ofNat 12

/-- The lines, each with its end. -/
def lines : List Char → List (List Char)
  | [] => []
  | c :: t =>
    if c = '\n' then [c] :: lines t
    else match lines t with
      | [] => [[c]]
      | l :: ls => (c :: l) :: ls

/-- Without the white space at both ends. -/
def strip (s : List Char) : List Char := (s.dropWhile isSpace).rdropWhile isSpace

/-- The runs of characters that are no white space. -/
def words (s : List Char) : List (List Char) := (s.splitOnP isSpace).filter fun w => !w.isEmpty

/-- The decimal digits of a number. -/
def decimal (n : ℕ) : List Char := Nat.toDigits 10 n

/-- The value of decimal digits. -/
def number (s : List Char) : ℕ := Nat.ofDigitChars 10 s 0

/-- The first run of digits, if there is one. -/
def firstNumber (s : List Char) : Option (List Char) :=
  match (s.dropWhile fun c => !c.isDigit).takeWhile Char.isDigit with
  | [] => none
  | ds => some ds

variable {s t w : List Char} {m n : ℕ} {c : Char}

/-! ### Lines -/

/-- The first line of a text. -/
theorem lines_append (h : '\n' ∉ s) : lines (s ++ '\n' :: t) = (s ++ ['\n']) :: lines t := by
  induction s with
  | nil => simp [lines]
  | cons c s ih =>
    rw [List.mem_cons, not_or] at h
    rw [List.cons_append, lines, if_neg (fun hc => h.1 hc.symm), ih h.2]
    rfl

/-! ### Words -/

/-- A word in front of a blank. -/
theorem words_append (hne : w ≠ []) (hw : ∀ c ∈ w, isSpace c = false) : words (w ++ ' ' :: s) = w :: words s := by
  rw [words, List.splitOnP_append_cons_of_forall_mem hw ' ' rfl, List.filter_cons_of_pos (by simpa using hne), words]

theorem words_word (hne : w ≠ []) (hw : ∀ c ∈ w, isSpace c = false) : words w = [w] := by
  rw [words, List.splitOnP_eq_singleton hw, List.filter_cons_of_pos (by simpa using hne), List.filter_nil]

/-- A line that begins and ends with a word loses its end. -/
theorem strip_line (hhead : ∀ c ∈ s.head?, isSpace c = false) (hlast : ∀ c ∈ s.getLast?, isSpace c = false) :
    strip (s ++ ['\n']) = s := by
  cases s with
  | nil => decide
  | cons c s =>
    have hc : isSpace c = false := hhead c rfl
    rw [strip, List.cons_append, List.dropWhile_cons_of_neg (by simp [hc]), ← List.cons_append,
      List.rdropWhile_concat_pos _ _ _ (by decide), List.rdropWhile_eq_self_iff]
    intro hne
    rw [hlast _ (List.getLast?_eq_getLast_of_ne_nil hne)]
    decide

/-! ### Numbers -/

theorem decimal_ne_nil : decimal n ≠ [] := Nat.toDigits_ne_nil

theorem isDigit_of_mem_decimal (h : c ∈ decimal n) : c.isDigit := Nat.isDigit_of_mem_toDigits (by omega) (by omega) h

/-- A number is read as it was written. -/
theorem number_decimal : number (decimal n) = n := Nat.ofDigitChars_ten_toDigits

theorem decimal_injective : Function.Injective decimal := fun m n h => by
  rw [← number_decimal (n := m), h, number_decimal]

@[simp] theorem decimal_inj : decimal m = decimal n ↔ m = n := decimal_injective.eq_iff

/-- A number of 64 bits. -/
theorem length_decimal (hn : n < 2 ^ 64) : (decimal n).length ≤ 20 :=
  (Nat.length_toDigits_le_iff (by omega) (by omega)).mpr (hn.trans (by decide))

/-- A digit is no white space. -/
theorem isSpace_of_isDigit (h : c.isDigit) : isSpace c = false := by
  have hne : ∀ d : Char, d.isDigit = false → c ≠ d := by
    rintro d hd rfl
    rw [hd] at h
    cases h
  simp only [isSpace, Bool.or_eq_false_iff, decide_eq_false_iff_not]
  exact ⟨⟨⟨⟨⟨hne _ rfl, hne _ rfl⟩, hne _ rfl⟩, hne _ rfl⟩, hne _ rfl⟩, hne _ rfl⟩

theorem not_mem_decimal (h : c.isDigit = false) : c ∉ decimal n := fun hc => by
  rw [isDigit_of_mem_decimal hc] at h
  cases h

/-- The first number in a line. -/
theorem firstNumber_append (hs : ∀ c ∈ s, c.isDigit = false) (ht : ∀ c ∈ t.head?, c.isDigit = false) :
    firstNumber (s ++ decimal n ++ t) = some (decimal n) := by
  have hdrop : (s ++ decimal n ++ t).dropWhile (fun c => !c.isDigit) = decimal n ++ t := by
    obtain ⟨d, ds, hd⟩ := List.exists_cons_of_ne_nil (decimal_ne_nil (n := n))
    rw [List.append_assoc, List.dropWhile_append_of_pos (by simpa using hs), hd, List.cons_append,
      List.dropWhile_cons_of_neg]
    have hdigit : d.isDigit := isDigit_of_mem_decimal (n := n) (by rw [hd]; exact List.mem_cons_self)
    simp [hdigit]
  have htake : (decimal n ++ t).takeWhile Char.isDigit = decimal n := by
    rw [List.takeWhile_append_of_pos fun c hc => isDigit_of_mem_decimal hc]
    cases t with
    | nil => simp
    | cons c t => simp [ht c rfl]
  rw [firstNumber, hdrop, htake]
  split
  next h => exact absurd h decimal_ne_nil
  next => rfl

end Text
