import Schnauzer.Common.Yaml
import Mathlib.Data.Char
import Mathlib.Data.List.Lex
import Mathlib.Data.List.Sort

/-!
# Block-style documents

What a configuration file looks like: the entries of a table one below the other, indented by two blanks more than
those of the table around it.

A tree has many documents. Its entries may stand in any order, there may be empty lines between them, and the text of a
vector may have anything that is not a digit between its numbers. `Block` has all of them.

## What is proved

* `buildValue_of_leafText` — the value of a leaf.
* `Block.parses` — the parser puts the entries of a block into its table, and goes on behind the block.
* `parse_renders` — every document of a tree is parsed as that tree.
-/

namespace Schnauzer

namespace Yaml

open Iostream

/-! ### Leaves -/

/-- Text in one line. -/
def OneLine (s : List Char) : Prop := ∀ c ∈ s, isDot c

instance (s : List Char) : Decidable (OneLine s) := decidable_of_iff (s.all isDot) List.all_eq_true

/-- The text of a `bool`. -/
def boolText (b : Bool) : List Char := if b then "true".toList else "false".toList

/-- A string that is not taken for another value. -/
structure PlainString (s : List Char) : Prop where
  line : OneLine s
  number : isNumber s = false
  bool : ∀ b, s ≠ boolText b
  vector : s.head? ≠ some '['

/-- Text without digits. -/
def NoDigits (s : List Char) : Prop := ∀ c ∈ s, c.isDigit = false

instance (s : List Char) : Decidable (NoDigits s) :=
  decidable_of_iff (s.all fun c => !c.isDigit) (by simp [NoDigits])

/-- The text of a vector: its numbers, with no digits between them. -/
inductive VectorText : List ℕ → List Char → Prop where
  | nil {lead : List Char} (hlead : NoDigits lead) : VectorText [] lead
  | cons {n : ℕ} {ns : List ℕ} {lead rest : List Char} (hlead : NoDigits lead) (hn : n < 2 ^ 31)
      (hrest : ∀ c ∈ rest.head?, c.isDigit = false) (h : VectorText ns rest) :
      VectorText (n :: ns) (lead ++ (Text.decimal n ++ rest))

/-- The text of a value in a line. -/
inductive LeafText : Value → List Char → Prop where
  | number {n : ℕ} (hn : n < 2 ^ 63) : LeafText (.number n) (Text.decimal n)
  | bool (b : Bool) : LeafText (.bool b) (boolText b)
  | vector {ns : List ℕ} {s : List Char} (hhead : s.head? = some '[') (h : VectorText ns s) (hline : OneLine s) :
      LeafText (.vector (ns.map Nat.cast)) s
  | string {s : List Char} (h : PlainString s) : LeafText (.string s) s

variable {v : Value} {s text : List Char} {n : ℕ} {ns : List ℕ}

theorem oneLine_decimal : OneLine (Text.decimal n) := by
  intro c hc
  have hdigit := Text.isDigit_of_mem_decimal hc
  have hne : ∀ d : Char, d.isDigit = false → c ≠ d := by
    rintro d hd rfl
    rw [hd] at hdigit
    cases hdigit
  simp [isDot, hne '\n' rfl, hne '\r' rfl]

/-- A leaf stands in one line. -/
theorem LeafText.oneLine (h : LeafText v s) : OneLine s := by
  cases h with
  | number hn => exact oneLine_decimal
  | bool b => cases b <;> decide
  | vector hhead h hline => exact hline
  | string h => exact h.line

/-- The numbers that are found in the text of a vector. -/
theorem VectorText.findAll {k : ℕ} (h : VectorText ns s) (hk : s.length ≤ k) :
    Regex.findAll [numberRgx] k s = ns.map Text.decimal := by
  induction h generalizing k with
  | nil hlead => exact Regex.findAll_eq_nil rfl hlead
  | @cons n ns lead rest hlead hn hrest h ih =>
    have hpos := List.length_pos_of_ne_nil (Text.decimal_ne_nil (n := n))
    rw [List.length_append, List.length_append] at hk
    obtain ⟨k, rfl⟩ := Nat.exists_eq_add_one_of_ne_zero (show k ≠ 0 by omega)
    rw [Regex.findAll_run rfl (fun c hc => hlead c hc) (fun c hc => Text.isDigit_of_mem_decimal hc) Text.decimal_ne_nil hrest,
      ih (by omega), List.map_cons]

theorem VectorText.lt (h : VectorText ns s) : ∀ n ∈ ns, n < 2 ^ 31 := by
  induction h with
  | nil => exact nofun
  | cons hlead hn hrest h ih => exact List.forall_mem_cons.mpr ⟨hn, ih⟩

theorem mapM_stoi_decimal (h : ∀ n ∈ ns, n < 2 ^ 31) : (ns.map Text.decimal).mapM stoi = .ok (ns.map Nat.cast) := by
  induction ns with
  | nil => rfl
  | cons n ns ih =>
    rw [List.forall_mem_cons] at h
    have hstoi : stoi (Text.decimal n) = .ok n := by rw [stoi, Text.number_decimal, if_pos h.1]
    rw [List.map_cons, List.mapM_cons, hstoi, ih h.2]
    rfl

/-- A text of digits only is a number. -/
theorem isNumber_iff : isNumber s ↔ s ≠ [] ∧ ∀ c ∈ s, c.isDigit := by
  simp [isNumber]

/-- **The value of a leaf**. -/
theorem buildValue_of_leafText (h : LeafText v s) : buildValue s = .ok v := by
  cases h with
  | @number n hn =>
    have hnumber : isNumber (Text.decimal n) :=
      isNumber_iff.mpr ⟨Text.decimal_ne_nil, fun c hc => Text.isDigit_of_mem_decimal hc⟩
    have hstoll : stoll (Text.decimal n) = .ok n := by rw [stoll, Text.number_decimal, if_pos hn]
    rw [buildValue, if_pos hnumber, hstoll]
    rfl
  | bool b => cases b <;> rfl
  | vector hhead h hline =>
    have hnumber : ¬ isNumber s := fun hs => by
      have hdigit := (isNumber_iff.mp hs).2 '[' (List.mem_of_mem_head? hhead)
      exact absurd hdigit (by decide)
    rw [buildValue, if_neg hnumber, if_pos hhead, parseVector, h.findAll le_rfl, mapM_stoi_decimal h.lt]
    rfl
  | string h =>
    have htrue : s ≠ "true".toList := h.bool true
    have hfalse : s ≠ "false".toList := h.bool false
    rw [buildValue, if_neg (by simp [h.number]), if_neg h.vector, if_neg htrue, if_neg hfalse]
    rfl

/-! ### Lines -/

/-- A key: `[_a-zA-Z]+`. -/
structure IsKey (key : List Char) : Prop where
  ne_nil : key ≠ []
  chars : ∀ c ∈ key, isKeyChar c

instance (key : List Char) : Decidable (IsKey key) :=
  decidable_of_iff (key ≠ [] ∧ key.all isKeyChar)
    ⟨fun h => ⟨h.1, List.all_eq_true.mp h.2⟩, fun h => ⟨h.ne_nil, List.all_eq_true.mpr h.chars⟩⟩

/-- The blanks in front of an entry. -/
def indent (level : ℕ) : List Char := List.replicate level ' '

/-- `key: value`. -/
def leafLine (level : ℕ) (key text : List Char) : List Char := indent level ++ (key ++ ':' :: ' ' :: text)

/-- `key:`. -/
def subLine (level : ℕ) (key : List Char) : List Char := indent level ++ (key ++ [':'])

variable {level : ℕ} {key line : List Char}

/-- A character of a key is none of those that stand around it. -/
theorem ne_of_isKeyChar {c d : Char} (hc : isKeyChar c) (hd : isKeyChar d = false) : c ≠ d := by
  rintro rfl
  rw [hd] at hc
  cases hc

theorem isSpace_of_isKeyChar {c : Char} (hc : isKeyChar c) : Text.isSpace c = false := by
  simp only [Text.isSpace, Bool.or_eq_false_iff, decide_eq_false_iff_not]
  exact ⟨⟨⟨⟨⟨ne_of_isKeyChar hc rfl, ne_of_isKeyChar hc rfl⟩, ne_of_isKeyChar hc rfl⟩, ne_of_isKeyChar hc rfl⟩,
    ne_of_isKeyChar hc rfl⟩, ne_of_isKeyChar hc rfl⟩

theorem mem_indent {c : Char} (hc : c ∈ indent level) : c = ' ' := List.eq_of_mem_replicate hc

theorem newline_not_mem_subLine (hkey : IsKey key) : '\n' ∉ subLine level key := by
  have hindent : '\n' ∉ indent level := fun hc => absurd (mem_indent hc) (by decide)
  have hchars : '\n' ∉ key := fun hc => absurd (hkey.chars _ hc) (by decide)
  simp [subLine, hindent, hchars]

theorem newline_not_mem_leafLine (hkey : IsKey key) (htext : OneLine text) : '\n' ∉ leafLine level key text := by
  have hline : '\n' ∉ text := fun hc => absurd (htext _ hc) (by decide)
  have hsub : '\n' ∉ subLine level key := newline_not_mem_subLine hkey
  rw [subLine, List.mem_append, List.mem_append, not_or, not_or] at hsub
  simp [leafLine, hsub, hline]

/-- The key of a line is found where it begins. -/
theorem search_key {its : List (Regex.Item Char)} {m : Regex.Match Char} (hkey : IsKey key)
    (hm : Regex.matchHere its (':' :: text) = some m) :
    Regex.search (keyItem :: its) (indent level ++ (key ++ ':' :: text)) =
      some ⟨key ++ m.str, key :: m.groups, m.suffix⟩ := by
  refine Regex.search_of_prefix (by decide) (fun c hc => ?_) ?_
  · rw [mem_indent hc]
    rfl
  · exact Regex.matchHere_run (by decide) hkey.chars (fun _ => hkey.ne_nil) (fun c hc => by cases hc; rfl) hm

/-- **A leaf** is taken for one. -/
theorem lineKind_leafLine (hkey : IsKey key) (htext : OneLine text) :
    lineKind (leafLine level key text) = .leaf key text := by
  have hvalue : Regex.matchHere [⟨isDot, .star, true⟩] text = some ⟨text, [text], []⟩ := by
    have hrun := @Regex.matchHere_run _ ⟨isDot, .star, true⟩ [] [] text ⟨[], [], []⟩ nofun htext nofun nofun rfl
    rwa [List.append_nil] at hrun
  have hblank : Regex.matchHere [⟨Text.isSpace, .one, false⟩, ⟨isDot, .star, true⟩] (' ' :: text) =
      some ⟨' ' :: text, [text], []⟩ := Regex.matchHere_one rfl rfl hvalue
  have hcolon : Regex.matchHere (colonItem :: _) (':' :: ' ' :: text) = some ⟨':' :: ' ' :: text, [text], []⟩ :=
    Regex.matchHere_one rfl rfl hblank
  have hsearch : Regex.search leafRgx (leafLine level key text) = some ⟨_, [key, text], []⟩ := search_key hkey hcolon
  simp only [lineKind, hsearch]
  rfl

/-- In the line of a sub-table there is nothing behind the colon. -/
theorem search_leafRgx_subLine (hkey : IsKey key) : Regex.search leafRgx (subLine level key) = none := by
  cases h : Regex.search leafRgx (subLine level key) with
  | none => rfl
  | some m =>
    obtain ⟨pre, hpre, hmatch⟩ := Regex.search_sound h
    generalize m.str = str at hpre hmatch
    obtain _ | @⟨_, _, w₁, _, -, _ | @⟨_, _, w₂, _, hcolon, _ | @⟨_, _, w₃, v, hspace, -⟩⟩⟩ := hmatch
    obtain ⟨c, rfl⟩ := List.length_eq_one_iff.mp (hcolon.one rfl)
    obtain ⟨d, rfl⟩ := List.length_eq_one_iff.mp (hspace.one rfl)
    have hc : c = ':' := by simpa [colonItem] using hcolon.cls c
    subst hc
    have hlast : (subLine level key).dropLast = indent level ++ key := by
      rw [subLine, ← List.append_assoc, List.dropLast_concat]
    have hmem : ':' ∈ (subLine level key).dropLast := by
      rw [← hpre]
      simp [List.dropLast_append_of_ne_nil]
    rw [hlast, List.mem_append] at hmem
    obtain hmem | hmem := hmem
    · exact absurd (mem_indent hmem) (by decide)
    · exact absurd (hkey.chars _ hmem) (by decide)

/-- **A sub-table** is taken for one. -/
theorem lineKind_subLine (hkey : IsKey key) : lineKind (subLine level key) = .sub key := by
  have hspaces : Regex.matchHere [⟨Text.isSpace, .star, false⟩] [] = some ⟨[], [], []⟩ := rfl
  have hcolon : Regex.matchHere (colonItem :: _) [':'] = some ⟨[':'], [], []⟩ := Regex.matchHere_one rfl rfl hspaces
  have hsearch : Regex.search subRgx (subLine level key) = some ⟨_, [key], []⟩ := search_key hkey hcolon
  simp only [lineKind, search_leafRgx_subLine hkey, hsearch]
  rfl

/-! ### Indentation -/

variable {level' : ℕ}

theorem isStartswithSpace_iff :
    isStartswithSpace s level ↔ level ≤ s.length ∧ ∀ c ∈ s.take level, Text.isSpace c := by
  rw [isStartswithSpace]
  split_ifs with hlen
  · simp [Nat.not_le.mpr hlen]
  · simp [Nat.not_lt.mp hlen]

/-- Blanks for a deeper level are blanks for this one. -/
theorem isStartswithSpace_mono (hle : level ≤ level') (h : isStartswithSpace s level') :
    isStartswithSpace s level := by
  rw [isStartswithSpace_iff] at h ⊢
  exact ⟨hle.trans h.1, fun c hc => h.2 c ((List.take_prefix_take_left hle).subset hc)⟩

/-- An entry begins with the blanks of its table. -/
theorem isStartswithSpace_indent (s : List Char) : isStartswithSpace (indent level ++ s) level := by
  have hlen : (indent level).length = level := List.length_replicate
  rw [isStartswithSpace_iff, List.take_left' hlen]
  refine ⟨by rw [List.length_append, hlen]; exact Nat.le_add_right _ _, fun c hc => ?_⟩
  rw [mem_indent hc]
  rfl

/-- It does not begin with those of its sub-tables. -/
theorem isStartswithSpace_key (hlt : level < level') (hkey : IsKey key) (s : List Char) :
    isStartswithSpace (indent level ++ (key ++ s)) level' = false := by
  have hlen : (indent level).length = level := List.length_replicate
  obtain ⟨c, key, rfl⟩ := List.exists_cons_of_ne_nil hkey.ne_nil
  obtain ⟨d, rfl⟩ := Nat.exists_eq_add_of_lt hlt
  apply Bool.eq_false_iff.mpr
  intro h
  have hspace : Text.isSpace c := by
    refine (isStartswithSpace_iff.mp h).2 c ?_
    rw [Nat.add_assoc, List.take_append, hlen, Nat.add_sub_cancel_left]
    exact List.mem_append_right _ List.mem_cons_self
  rw [isSpace_of_isKeyChar (hkey.chars c List.mem_cons_self)] at hspace
  cases hspace

/-- The lines that a table at the level ends in front of: the next one that is not empty belongs elsewhere. -/
def Ends (level : ℕ) (ls : List (List Char)) : Prop :=
  ∀ line ∈ (ls.dropWhile List.isEmpty).head?, isStartswithSpace line level = false

variable {ls ls' rest : List (List Char)} {table table' t : Table}

theorem ends_nil : Ends level [] := nofun

@[simp] theorem ends_blank : Ends level ([] :: ls) ↔ Ends level ls := Iff.rfl

theorem ends_line (hne : line ≠ []) : Ends level (line :: ls) ↔ isStartswithSpace line level = false := by
  have hempty : ¬ line.isEmpty := by rwa [List.isEmpty_iff]
  simp [Ends, List.dropWhile_cons_of_neg hempty]

theorem Ends.mono (hle : level ≤ level') (h : Ends level ls) : Ends level' ls := fun line hline =>
  Bool.eq_false_iff.mpr fun hspace => Bool.eq_false_iff.mp (h line hline) (isStartswithSpace_mono hle hspace)

/-- **A sub-table ends** there, and pushes the line back. -/
theorem Ends.parses (h : Ends level ls) (hlevel : level ≠ 0) :
    Parses level t ls t (ls.dropWhile List.isEmpty) := by
  induction ls with
  | nil => exact .done
  | cons line ls ih =>
    cases line with
    | nil => exact .blank (ih h)
    | cons c line =>
      rw [ends_line (List.cons_ne_nil c line)] at h
      exact .outdent (List.cons_ne_nil c line) h hlevel

/-- The empty lines that it has read are of no account. -/
theorem Parses.dropBlank (h : Parses level t ls table' rest) :
    Parses level t (ls.dropWhile List.isEmpty) table' rest := by
  induction ls with
  | nil => exact h
  | cons line ls ih =>
    cases line with
    | cons c line => exact h
    | nil =>
      cases h with
      | blank h => exact ih h
      | outdent hne => exact absurd rfl hne
      | leaf hne => exact absurd rfl hne
      | sub hne => exact absurd rfl hne

/-! ### Tables -/

/-- The entries of a `std::map`: each key once, in the order of the keys. -/
def Sorted (table : Table) : Prop := table.Pairwise fun p q => p.1 < q.1

instance (table : Table) : Decidable (Sorted table) :=
  inferInstanceAs (Decidable (table.Pairwise fun p q => p.1 < q.1))

/-- No key twice. -/
def Distinct (es : Table) : Prop := es.Pairwise fun p q => p.1 ≠ q.1

/-- The table after `addValue` for each entry. -/
def putAll (es t : Table) : Table := es.foldl (fun t p => addValue p.1 p.2 t) t

variable {es : Table} {p : List Char × Value}

theorem mem_addValue {q : List Char × Value} (hq : q ∈ addValue key v t) : q = (key, v) ∨ q ∈ t := by
  induction t with
  | nil => exact .inl (List.mem_singleton.mp hq)
  | cons p t ih =>
    rw [addValue] at hq
    split_ifs at hq with hlt heq
    · exact List.mem_cons.mp hq
    · exact (List.mem_cons.mp hq).imp_right (List.mem_cons_of_mem p)
    · obtain rfl | hq := List.mem_cons.mp hq
      · exact .inr List.mem_cons_self
      · exact (ih hq).imp_right (List.mem_cons_of_mem p)

/-- **`addValue`** keeps the order. -/
theorem Sorted.addValue (h : Sorted t) : Sorted (addValue key v t) := by
  induction t with
  | nil => exact List.pairwise_singleton _ _
  | cons p t ih =>
    obtain ⟨hhead, htail⟩ := List.pairwise_cons.mp h
    rw [Yaml.addValue]
    split_ifs with hlt heq
    · refine List.pairwise_cons.mpr ⟨fun q hq => ?_, h⟩
      obtain rfl | hq := List.mem_cons.mp hq
      · exact hlt
      · exact hlt.trans (hhead q hq)
    · subst heq
      exact List.pairwise_cons.mpr ⟨hhead, htail⟩
    · refine List.pairwise_cons.mpr ⟨fun q hq => ?_, ih htail⟩
      obtain rfl | hq := mem_addValue hq
      · exact (lt_trichotomy key p.1).resolve_left hlt |>.resolve_left heq
      · exact hhead q hq

theorem addValue_perm (h : ∀ p ∈ t, key ≠ p.1) : (addValue key v t).Perm ((key, v) :: t) := by
  induction t with
  | nil => exact .refl _
  | cons p t ih =>
    rw [List.forall_mem_cons] at h
    rw [addValue]
    split_ifs with hlt heq
    · exact .refl _
    · exact absurd heq h.1
    · exact ((ih h.2).cons p).trans (.swap (key, v) p t)

theorem Sorted.putAll (h : Sorted t) : Sorted (putAll es t) := by
  induction es generalizing t with
  | nil => exact h
  | cons p es ih => exact ih h.addValue

theorem Sorted.distinct (h : Sorted t) : Distinct t := h.imp ne_of_lt

theorem Distinct.perm (h : Distinct t) (hperm : t.Perm es) : Distinct es := hperm.pairwise h Ne.symm

theorem putAll_perm (h : Distinct (es ++ t)) : (putAll es t).Perm (es ++ t) := by
  induction es generalizing t with
  | nil => exact .refl _
  | cons p es ih =>
    obtain ⟨hhead, htail⟩ := List.pairwise_cons.mp h
    have hadd := addValue_perm (v := p.2) fun q hq => hhead q (List.mem_append_right es hq)
    have hmoved : (es ++ addValue p.1 p.2 t).Perm (p :: (es ++ t)) :=
      (hadd.append_left es).trans List.perm_middle
    exact (ih (h.perm hmoved.symm)).trans hmoved

/-- **A table is rebuilt** from its entries in any order. -/
theorem putAll_eq (h : Sorted table) (hperm : es.Perm table) : putAll es [] = table := by
  have hall : (putAll es []).Perm table := by
    have hes : Distinct (es ++ []) := by
      rw [List.append_nil]
      exact h.distinct.perm hperm.symm
    have hput := putAll_perm hes
    rw [List.append_nil] at hput
    exact hput.trans hperm
  have hsorted : Sorted (putAll es []) := Sorted.putAll List.Pairwise.nil
  exact hall.eq_of_pairwise (fun p q _ _ hpq hqp => absurd hqp hpq.asymm) hsorted h

/-! ### Documents -/

/-- The lines of a block with these entries, in this order. -/
inductive Block : ℕ → Table → List (List Char) → Prop where
  | nil {level : ℕ} : Block level [] []
  /-- An empty line. -/
  | blank {level : ℕ} {es : Table} {ls : List (List Char)} (h : Block level es ls) : Block level es ([] :: ls)
  /-- `key: value`. -/
  | leaf {level : ℕ} {key text : List Char} {v : Value} {es : Table} {ls : List (List Char)} (hkey : IsKey key)
      (htext : LeafText v text) (h : Block level es ls) : Block level ((key, v) :: es) (leafLine level key text :: ls)
  /-- `key:`, and the block of its table. -/
  | sub {level : ℕ} {key : List Char} {table sub es : Table} {subls ls : List (List Char)} (hkey : IsKey key)
      (hsorted : Sorted table) (hperm : sub.Perm table) (hsub : Block (level + 2) sub subls) (h : Block level es ls) :
      Block level ((key, .yaml table) :: es) (subLine level key :: (subls ++ ls))

theorem leafLine_ne_nil : leafLine level key text ≠ [] := by simp [leafLine]

theorem subLine_ne_nil : subLine level key ≠ [] := by simp [subLine]

/-- A block does not begin with lines of a sub-table. -/
theorem Block.ends (h : Block level es ls) (hends : Ends (level + 2) rest) : Ends (level + 2) (ls ++ rest) := by
  induction h with
  | nil => exact hends
  | blank h ih => exact ih hends
  | leaf hkey htext h ih =>
    rw [List.cons_append, ends_line (leafLine_ne_nil)]
    exact isStartswithSpace_key (by omega) hkey _
  | sub hkey hsorted hperm hsub h ihsub ih =>
    rw [List.cons_append, ends_line subLine_ne_nil]
    exact isStartswithSpace_key (by omega) hkey _

/-- **A block** is parsed: its entries are put into the table, and the parser goes on behind it. -/
theorem Block.parses (h : Block level es ls) (hends : Ends (level + 2) rest)
    (hrest : Parses level (putAll es t) rest table' ls') : Parses level t (ls ++ rest) table' ls' := by
  induction h generalizing t rest table' ls' with
  | nil => exact hrest
  | blank h ih => exact .blank (ih hends hrest)
  | leaf hkey htext h ih =>
    exact .leaf (leafLine_ne_nil) (isStartswithSpace_indent _) (lineKind_leafLine hkey htext.oneLine)
      (buildValue_of_leafText htext) (ih hends hrest)
  | @sub level key table sub es subls ls hkey hsorted hperm hsub h ihsub ih =>
    have hbehind : Ends (level + 2) (ls ++ rest) := h.ends hends
    have hsubtable : Parses (level + 2) [] (subls ++ (ls ++ rest)) table ((ls ++ rest).dropWhile List.isEmpty) := by
      apply ihsub (hbehind.mono (by omega))
      rw [putAll_eq hsorted hperm]
      exact hbehind.parses (by omega)
    rw [List.cons_append, List.append_assoc]
    exact .sub subLine_ne_nil (isStartswithSpace_indent _) (lineKind_subLine hkey) hsubtable (ih hends hrest).dropBlank

/-- A line of a block has no end of a line in it. -/
theorem Block.newline_not_mem (h : Block level es ls) : ∀ line ∈ ls, '\n' ∉ line := by
  induction h with
  | nil => exact nofun
  | blank h ih => exact List.forall_mem_cons.mpr ⟨List.not_mem_nil, ih⟩
  | leaf hkey htext h ih => exact List.forall_mem_cons.mpr ⟨newline_not_mem_leafLine hkey htext.oneLine, ih⟩
  | sub hkey hsorted hperm hsub h ihsub ih =>
    exact List.forall_mem_cons.mpr ⟨newline_not_mem_subLine hkey, List.forall_mem_append.mpr ⟨ihsub, ih⟩⟩

/-- The text of these lines; the last one may have no end. -/
inductive TextOf : List (List Char) → List Char → Prop where
  | ended {ls : List (List Char)} : TextOf ls (ls.flatMap (· ++ ['\n']))
  | unended {ls : List (List Char)} {last : List Char} (hne : last ≠ []) :
      TextOf (ls ++ [last]) (ls.flatMap (· ++ ['\n']) ++ last)

theorem TextOf.lines (h : TextOf ls text) (hls : ∀ line ∈ ls, '\n' ∉ line) : Istream.lines '\n' text = ls := by
  cases h with
  | ended =>
    have hlines := Istream.lines_flatMap hls []
    rwa [List.append_nil, Istream.lines, List.append_nil] at hlines
  | unended hne =>
    obtain ⟨hls, hlast⟩ := List.forall_mem_append.mp hls
    rw [Istream.lines_flatMap hls, Istream.lines_of_not_mem (hlast _ (List.mem_singleton_self _)) hne]

/-- **A document** of a tree. -/
def Renders (table : Table) (text : List Char) : Prop :=
  ∃ es ls, es.Perm table ∧ Sorted table ∧ Block 0 es ls ∧ TextOf ls text

/-- A document is parsed as its tree. -/
theorem Renders.parse (h : Renders table text) : parse text = .ok (.yaml table) := by
  obtain ⟨es, ls, hperm, hsorted, hblock, htext⟩ := h
  have hparses : Parses 0 [] (ls ++ []) table [] := by
    apply hblock.parses ends_nil
    rw [putAll_eq hsorted hperm]
    exact .done
  refine parse_eq_ok_iff.mpr ⟨table, rfl, ?_⟩
  rwa [htext.lines hblock.newline_not_mem, ← List.append_nil ls]

/-! ### Trees -/

/-- The trees that a document can be written for. -/
inductive Valid : Value → Prop where
  | number {n : ℕ} (hn : n < 2 ^ 63) : Valid (.number n)
  | bool (b : Bool) : Valid (.bool b)
  | vector {ns : List ℕ} (hns : ∀ n ∈ ns, n < 2 ^ 31) : Valid (.vector (ns.map Nat.cast))
  | string {s : List Char} (h : PlainString s) : Valid (.string s)
  | yaml {table : Table} (hsorted : Sorted table) (hkeys : ∀ p ∈ table, IsKey p.1)
      (hvalues : ∀ p ∈ table, Valid p.2) : Valid (.yaml table)

/-- `[1, 2, ]`. -/
def vectorText (ns : List ℕ) : List Char := '[' :: (ns.flatMap fun n => Text.decimal n ++ [',', ' ']) ++ [']']

theorem vectorText_spec (hns : ∀ n ∈ ns, n < 2 ^ 31) : VectorText ns (vectorText ns) := by
  have hbehind : ∀ lead : List Char, NoDigits lead →
      VectorText ns (lead ++ ((ns.flatMap fun n => Text.decimal n ++ [',', ' ']) ++ [']'])) := by
    induction ns with
    | nil =>
      intro lead hlead
      have hend : NoDigits [']'] := by decide
      exact .nil (List.forall_mem_append.mpr ⟨hlead, hend⟩)
    | cons n ns ih =>
      intro lead hlead
      rw [List.forall_mem_cons] at hns
      have hrest := ih hns.2 [',', ' '] (by decide)
      rw [List.flatMap_cons, List.append_assoc, List.append_assoc]
      exact .cons hlead hns.1 (fun c hc => by cases hc; rfl) hrest
  exact hbehind ['['] (by decide)

theorem oneLine_vectorText : OneLine (vectorText ns) := by
  have hend : OneLine [']'] := by decide
  refine List.forall_mem_append.mpr ⟨List.forall_mem_cons.mpr ⟨rfl, fun c hc => ?_⟩, hend⟩
  obtain ⟨n, -, hc⟩ := List.mem_flatMap.mp hc
  obtain hc | hc := List.mem_append.mp hc
  · exact oneLine_decimal c hc
  · have hseparator : OneLine [',', ' '] := by decide
    exact hseparator c hc

/-- What a value of a tree is written as. -/
def Written (v : Value) : Prop :=
  (∃ text, LeafText v text) ∨ ∃ table, v = .yaml table ∧ Sorted table ∧ ∀ level, ∃ ls, Block level table ls

theorem exists_block (hkeys : ∀ p ∈ es, IsKey p.1) (hvalues : ∀ p ∈ es, Written p.2) :
    ∃ ls, Block level es ls := by
  induction es with
  | nil => exact ⟨[], .nil⟩
  | cons p es ih =>
    rw [List.forall_mem_cons] at hkeys hvalues
    obtain ⟨ls, hls⟩ := ih hkeys.2 hvalues.2
    obtain ⟨key, v⟩ := p
    obtain ⟨text, htext⟩ | ⟨table, rfl, hsorted, hblock⟩ := hvalues.1
    · exact ⟨_, .leaf hkeys.1 htext hls⟩
    · obtain ⟨subls, hsub⟩ := hblock (level + 2)
      exact ⟨_, .sub hkeys.1 hsorted (.refl _) hsub hls⟩

theorem Valid.written (h : Valid v) : Written v := by
  induction h with
  | number hn => exact .inl ⟨_, .number hn⟩
  | bool b => exact .inl ⟨_, .bool b⟩
  | vector hns => exact .inl ⟨_, .vector rfl (vectorText_spec hns) oneLine_vectorText⟩
  | string h => exact .inl ⟨_, .string h⟩
  | yaml hsorted hkeys hvalues ih => exact .inr ⟨_, rfl, hsorted, fun level => exists_block hkeys ih⟩

/-- **A tree has documents, and every one of them** is parsed as that tree. -/
theorem parse_renders (h : Valid (.yaml table)) :
    (∃ text, Renders table text) ∧ ∀ text, Renders table text → parse text = .ok (.yaml table) := by
  refine ⟨?_, fun text htext => htext.parse⟩
  cases h with
  | yaml hsorted hkeys hvalues =>
    have hblock : ∃ ls, Block 0 table ls := exists_block hkeys fun p hp => (hvalues p hp).written
    obtain ⟨ls, hls⟩ := hblock
    exact ⟨_, table, ls, .refl _, hsorted, hls, .ended⟩

/-- Two tables of a configuration, the first of them empty. -/
def supervisorTable : Table :=
  [("LOGGER".toList, .yaml []),
    ("SUPERVISOR".toList, .yaml [("CTRL_THREAD".toList, .vector [0, 1]), ("SLEEP_TIME".toList, .number 20)])]

/-- With an empty line, the entries in another order, and no end of the last line. -/
def supervisorText : List Char := "LOGGER:\nSUPERVISOR:\n  SLEEP_TIME: 20\n\n  CTRL_THREAD: [0, 1]".toList

theorem valid_supervisorTable : Valid (.yaml supervisorTable) := by
  refine .yaml (by decide) (by decide) ?_
  simp only [supervisorTable, List.forall_mem_cons]
  refine ⟨.yaml .nil nofun nofun, .yaml (by decide) (by decide) ?_, nofun⟩
  simp only [List.forall_mem_cons]
  exact ⟨@Valid.vector [0, 1] (by decide), .number (n := 20) (by decide), nofun⟩

theorem renders_supervisorText : Renders supervisorTable supervisorText := by
  have hnumbers : VectorText [0, 1]
      ("[".toList ++ (Text.decimal 0 ++ (", ".toList ++ (Text.decimal 1 ++ "]".toList)))) :=
    .cons (by decide) (by decide) (fun c hc => by cases hc; rfl)
      (.cons (by decide) (by decide) (fun c hc => by cases hc; rfl) (.nil (by decide)))
  have hvector : LeafText (.vector [0, 1]) "[0, 1]".toList := @LeafText.vector [0, 1] _ rfl hnumbers (by decide)
  have hsub : Block 2 [("SLEEP_TIME".toList, .number 20), ("CTRL_THREAD".toList, .vector [0, 1])]
      ["  SLEEP_TIME: 20".toList, [], "  CTRL_THREAD: [0, 1]".toList] :=
    .leaf (by decide) (.number (n := 20) (by decide)) (.blank (.leaf (by decide) hvector .nil))
  refine ⟨supervisorTable, _, .refl _, by decide, .sub (by decide) .nil (.refl _) .nil
    (.sub (by decide) (by decide) (.swap _ _ _) hsub .nil), ?_⟩
  exact @TextOf.unended ["LOGGER:".toList, "SUPERVISOR:".toList, "  SLEEP_TIME: 20".toList, []]
    "  CTRL_THREAD: [0, 1]".toList (by decide)

theorem parse_renders_supervisor : parse supervisorText = .ok (.yaml supervisorTable) :=
  (parse_renders valid_supervisorTable).2 supervisorText renders_supervisorText

end Yaml

end Schnauzer
