import Mathlib.Algebra.Order.Ring.Int
import Mathlib.Tactic.SplitIfs

/-!
# Input streams

A stream over a sequence of characters, with the position and the flags of `std::istream`: what `tellg`,
`seekg`, `read` and `getline` return, and what they leave behind. Every one of them builds a sentry first, which
fails on a stream that is not good; `seekg` clears `eofbit` before it does so.

## What is proved

* `read_of_le`, `read_short` — a read that finds its characters, and one that does not.
* `tellg_of_fail` — a stream that has failed has no position.
* `Ahead.getline`, `Ahead.getline_end`, `Ahead.seekg_back` — a stream read line by line, and one line pushed back.
-/

namespace Iostream

universe u

/-- An input stream. -/
structure Istream (α : Type u) where
  /-- The characters of the file. -/
  content : List α
  /-- The position. -/
  pos : ℕ
  /-- `eofbit`. -/
  eofbit : Bool
  /-- `failbit`. -/
  failbit : Bool
  /-- How many characters the last unformatted input has got. -/
  gcount : ℕ

namespace Istream

variable {α : Type u} {s : Istream α} {n : ℕ}

/-- A stream that has been opened. -/
def ofContent (content : List α) : Istream α := ⟨content, 0, false, false, 0⟩

/-- No flag is set. -/
def good (s : Istream α) : Bool := !s.eofbit && !s.failbit

/-- What a sentry leaves. -/
def sentry (s : Istream α) : Istream α := if s.good then s else { s with failbit := true }

/-- The position, or `-1`. -/
def tellg (s : Istream α) : ℤ × Istream α := (if s.sentry.failbit then -1 else s.pos, s.sentry)

/-- The stream in front of a seek. -/
def clearEof (s : Istream α) : Istream α := { s with eofbit := false }

/-- To a position. -/
def seekg (p : ℤ) (s : Istream α) : Istream α :=
  if s.failbit then s.clearEof
  else if p < 0 then { s.clearEof with failbit := true }
  else { s.clearEof with pos := p.toNat }

/-- To the end. -/
def seekgEnd (s : Istream α) : Istream α :=
  if s.failbit then s.clearEof else { s.clearEof with pos := s.content.length }

/-- The next `n` characters, or those that are left. -/
def read (n : ℕ) (s : Istream α) : List α × Istream α :=
  if s.good then
    let got := (s.content.drop s.pos).take n
    let short := decide (got.length < n)
    (got, { s with pos := s.pos + got.length, eofbit := short, failbit := short, gcount := got.length })
  else ([], { s with failbit := true, gcount := 0 })

/-- The next line; a stream that is not good leaves `str` as it is. -/
def getline [DecidableEq α] (delim : α) (str : List α) (s : Istream α) : List α × Istream α :=
  if s.good then
    let rest := s.content.drop s.pos
    let line := rest.takeWhile (· ≠ delim)
    if line.length < rest.length then (line, { s with pos := s.pos + line.length + 1 })
    else (line, { s with pos := s.pos + rest.length, eofbit := true, failbit := rest.isEmpty })
  else (str, { s with failbit := true })

/-! ### Good streams -/

theorem good_iff : s.good ↔ s.eofbit = false ∧ s.failbit = false := by
  simp [good]

theorem sentry_of_good (h : s.good) : s.sentry = s := if_pos h

theorem tellg_of_good (h : s.good) : s.tellg = (↑s.pos, s) := by
  simp [tellg, sentry_of_good h, (good_iff.mp h).2]

theorem tellg_of_fail (h : s.failbit) : s.tellg = (-1, s) := by
  have hs : s.sentry = s := by
    unfold sentry
    split_ifs
    · rfl
    · rw [← h]
  simp [tellg, hs, h]

/-- A read that finds its characters. -/
theorem read_of_le (h : s.good) (hn : s.pos + n ≤ s.content.length) :
    s.read n = ((s.content.drop s.pos).take n, { s with pos := s.pos + n, gcount := n }) := by
  obtain ⟨he, hf⟩ := good_iff.mp h
  have hlen : ((s.content.drop s.pos).take n).length = n := by
    rw [List.length_take, List.length_drop]
    omega
  simp [read, h, hlen, he, hf]

/-- A read that does not. -/
theorem read_short (h : s.good) (hp : s.pos ≤ s.content.length) (hn : s.content.length < s.pos + n) :
    s.read n = (s.content.drop s.pos,
      { s with pos := s.pos + (s.content.length - s.pos), eofbit := true, failbit := true
               gcount := s.content.length - s.pos }) := by
  have htake : (s.content.drop s.pos).take n = s.content.drop s.pos := by
    rw [List.take_of_length_le]
    rw [List.length_drop]
    omega
  have hlen : s.content.length - s.pos < n := by omega
  simp [read, h, htake, hlen]

/-! ### Lines -/

section Lines

variable [DecidableEq α] {delim : α}

/-- The lines of a text, without their ends; the last one may have none. -/
def lines (delim : α) : List α → List (List α)
  | [] => []
  | c :: t =>
    if c = delim then [] :: lines delim t
    else match lines delim t with
      | [] => [[c]]
      | l :: ls => (c :: l) :: ls

theorem lines_append {l : List α} (h : delim ∉ l) (t : List α) :
    lines delim (l ++ delim :: t) = l :: lines delim t := by
  induction l with
  | nil => simp [lines]
  | cons c l ih =>
    rw [List.mem_cons, not_or] at h
    rw [List.cons_append, lines, if_neg (fun hc => h.1 hc.symm), ih h.2]

theorem lines_of_not_mem {l : List α} (h : delim ∉ l) (hne : l ≠ []) : lines delim l = [l] := by
  induction l with
  | nil => exact absurd rfl hne
  | cons c l ih =>
    rw [List.mem_cons, not_or] at h
    rw [lines, if_neg fun hc => h.1 hc.symm]
    cases l with
    | nil => rfl
    | cons d l => rw [ih h.2 (List.cons_ne_nil d l)]

/-- The lines of a text that has been put together from lines. -/
theorem lines_flatMap {ls : List (List α)} (h : ∀ l ∈ ls, delim ∉ l) (t : List α) :
    lines delim (ls.flatMap (· ++ [delim]) ++ t) = ls ++ lines delim t := by
  induction ls with
  | nil => rfl
  | cons l ls ih =>
    rw [List.forall_mem_cons] at h
    rw [List.flatMap_cons, List.append_assoc, List.append_assoc, List.singleton_append, lines_append h.1, ih h.2,
      List.cons_append]

/-- There are no more lines than characters. -/
theorem length_lines_le (t : List α) : (lines delim t).length ≤ t.length := by
  induction t with
  | nil => exact le_rfl
  | cons c t ih =>
    rw [lines]
    split_ifs
    · simpa using ih
    · split
      next => simp
      next heq =>
        rw [heq] at ih
        exact ih.trans (Nat.le_succ _)

/-- The first line. -/
theorem lines_eq_cons {t l : List α} {ls : List (List α)} (h : lines delim t = l :: ls) :
    t.takeWhile (· ≠ delim) = l ∧
      (l.length < t.length ∧ lines delim (t.drop (l.length + 1)) = ls ∨ l = t ∧ t ≠ [] ∧ ls = []) := by
  induction t generalizing l ls with
  | nil => cases h
  | cons c t ih =>
    rw [lines] at h
    by_cases hc : c = delim
    · rw [if_pos hc] at h
      cases h
      exact ⟨by simp [hc], Or.inl ⟨by simp, by simp⟩⟩
    · rw [if_neg hc] at h
      have hcw : (c :: t).takeWhile (· ≠ delim) = c :: t.takeWhile (· ≠ delim) := by simp [hc]
      rw [hcw]
      split at h
      next heq =>
        cases h
        have ht : t = [] := by
          cases t with
          | nil => rfl
          | cons d t =>
            rw [lines] at heq
            split_ifs at heq
            split at heq <;> cases heq
        subst ht
        exact ⟨rfl, Or.inr ⟨rfl, List.cons_ne_nil _ _, rfl⟩⟩
      next l' ls' heq =>
        cases h
        obtain ⟨htake, hrest⟩ := ih heq
        refine ⟨by rw [htake], hrest.imp (fun h => ⟨by simpa using h.1, by simpa using h.2⟩) fun h => ?_⟩
        exact ⟨by rw [h.1], List.cons_ne_nil _ _, h.2.2⟩

/-- The lines that `getline` has yet to return. -/
def Ahead (delim : α) (s : Istream α) (ls : List (List α)) : Prop :=
  s.good ∧ lines delim (s.content.drop s.pos) = ls ∨ s.good = false ∧ ls = []

theorem ahead_ofContent (content : List α) : Ahead delim (ofContent content) (lines delim content) :=
  Or.inl ⟨rfl, rfl⟩

theorem Ahead.good {l : List α} {ls : List (List α)} (h : Ahead delim s (l :: ls)) : s.good := by
  obtain h | h := h
  · exact h.1
  · cases h.2

/-- **A line.** -/
theorem Ahead.getline {l : List α} {ls : List (List α)} (h : Ahead delim s (l :: ls)) (str : List α) :
    ∃ s', s.getline delim str = (l, s') ∧ s'.failbit = false ∧ s'.content = s.content ∧ Ahead delim s' ls := by
  have hgood := h.good
  have hlines : lines delim (s.content.drop s.pos) = l :: ls := by
    obtain h | h := h
    · exact h.2
    · cases h.2
  obtain ⟨htake, hrest⟩ := lines_eq_cons hlines
  obtain ⟨he, hf⟩ := good_iff.mp hgood
  unfold Istream.getline
  rw [if_pos hgood]
  dsimp only
  rw [htake]
  obtain ⟨hlt, hls⟩ | ⟨hl, hne, hls⟩ := hrest
  · rw [if_pos hlt]
    refine ⟨_, rfl, hf, rfl, Or.inl ⟨hgood, ?_⟩⟩
    rw [← hls, List.drop_drop, Nat.add_assoc]
  · rw [if_neg (by rw [hl]; exact lt_irrefl _)]
    exact ⟨_, rfl, by simpa using hne, rfl, Or.inr ⟨by simp [Istream.good], hls⟩⟩

/-- **The end.** -/
theorem Ahead.getline_end (h : Ahead delim s []) (str : List α) :
    (s.getline delim str).2.failbit = true ∧ Ahead delim (s.getline delim str).2 [] := by
  have hfail : (s.getline delim str).2.failbit = true := by
    obtain ⟨hgood, hlines⟩ | ⟨hbad, -⟩ := h
    · have hnil : s.content.drop s.pos = [] := by
        cases hd : s.content.drop s.pos with
        | nil => rfl
        | cons c t =>
          rw [hd, lines] at hlines
          split_ifs at hlines
          split at hlines <;> cases hlines
      simp [Istream.getline, hgood, hnil]
    · simp [Istream.getline, hbad]
  exact ⟨hfail, Or.inr ⟨by simp [Istream.good, hfail], rfl⟩⟩

/-- Asking for the position. -/
theorem Ahead.tellg {ls : List (List α)} (h : Ahead delim s ls) : Ahead delim s.tellg.2 ls := by
  obtain ⟨hgood, hlines⟩ | ⟨hbad, rfl⟩ := h
  · rw [tellg_of_good hgood]
    exact Or.inl ⟨hgood, hlines⟩
  · refine Or.inr ⟨?_, rfl⟩
    simp only [Istream.tellg, sentry, hbad, Bool.false_eq_true, if_false]
    simp [Istream.good]

/-- **A line pushed back.** -/
theorem Ahead.seekg_back {ls : List (List α)} {s' : Istream α} (h : Ahead delim s ls) (hgood : s.good)
    (hcontent : s'.content = s.content) (hfail : s'.failbit = false) : Ahead delim (s'.seekg s.pos) ls := by
  have hlines : lines delim (s.content.drop s.pos) = ls := by
    obtain h | h := h
    · exact h.2
    · rw [hgood] at h
      cases h.1
  have hseek : s'.seekg s.pos = { s'.clearEof with pos := s.pos } := by
    simp [seekg, hfail]
  rw [hseek]
  refine Or.inl ⟨by simp [Istream.good, clearEof, hfail], ?_⟩
  simpa [clearEof, hcontent] using hlines

end Lines

end Istream

end Iostream
