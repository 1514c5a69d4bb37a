import Schnauzer.Lib.Istream
import Schnauzer.Lib.Regex
import Schnauzer.Lib.Text
import Mathlib.Order.Nat

/-!
# The configuration files

`common/Yaml`: values, the tables of names, and the parser of a file, which reads it line by line and pushes the line
back that does not belong to the table it is in.

A string is a list of characters; a `std::map` is the list of its entries, in the order of the keys. `parseImpl` has
a bound for its steps, and `parse` one that no file reaches.

## What is proved

* `parseImpl_of_parses`, `parses_of_parseImpl`, `parse_eq_ok_iff` — the parser on the lines of a file, without the
  stream.
* `parse_ne_fuel` — the parser returns on every file, or an `assert` or an exception stops it.
-/

namespace Schnauzer

namespace Yaml

open Iostream

/-- `Value` and its subclasses. -/
inductive Value where
  /-- `NumberValue`. -/
  | number (v : ℤ)
  /-- `BoolValue`. -/
  | bool (v : Bool)
  /-- `StringValue`. -/
  | string (v : List Char)
  /-- `VectorValue`. -/
  | vector (v : List ℤ)
  /-- `YamlValue`, with its `table_`. -/
  | yaml (table : List (List Char × Value))

/-- `table_`. -/
abbrev Table := List (List Char × Value)

/-- What stops the parser. -/
inductive YamlAbort where
  /-- `assert("Top level parse failure" && false)`. -/
  | topLevel
  /-- `assert("Error: Unknown line" && false)`. -/
  | unknownLine
  /-- `std::out_of_range`, of `std::stoi` or `std::stoll`. -/
  | outOfRange
  /-- The bound of the model. -/
  | fuel
  deriving DecidableEq

/-- `YamlValue::addValue`. -/
def addValue (k : List Char) (v : Value) : Table → Table
  | [] => [(k, v)]
  | p :: table =>
    if k < p.1 then (k, v) :: p :: table
    else if k = p.1 then (k, v) :: table
    else p :: addValue k v table

/-- `YamlValue::lookup`; nothing where its `assert` fails. -/
def lookup (k : List Char) : Table → Option Value
  | [] => none
  | p :: table => if k = p.1 then some p.2 else lookup k table

/-- `YamlValue::getNumber`, without its check; nothing where an `assert` fails. -/
def getNumber (table : Table) (k : List Char) : Option ℤ :=
  match lookup k table with
  | some (.number v) => some v
  | _ => none

/-- The value that was added is found under its key, and the other keys keep theirs. -/
theorem lookup_addValue (k k' : List Char) (v : Value) (table : Table) :
    lookup k' (addValue k v table) = if k' = k then some v else lookup k' table := by
  induction table with
  | nil => rfl
  | cons p table ih =>
    rw [addValue]
    by_cases hlt : k < p.1
    · rw [if_pos hlt]
      rfl
    rw [if_neg hlt]
    by_cases heq : k = p.1
    · rw [if_pos heq, lookup, lookup, ← heq]
      by_cases hk : k' = k
      · simp [hk]
      · simp [hk]
    · rw [if_neg heq, lookup, lookup, ih]
      by_cases hk : k' = p.1
      · have hne : k' ≠ k := fun h => heq (h.symm.trans hk)
        rw [if_pos hk, if_neg hne, if_pos hk]
      · rw [if_neg hk, if_neg hk]

theorem getNumber_addValue (k k' : List Char) (v : ℤ) (table : Table) :
    getNumber (addValue k (.number v) table) k' = if k' = k then some v else getNumber table k' := by
  rw [getNumber, lookup_addValue]
  split_ifs
  · rfl
  · rfl

/-! ### Values -/

/-- `std::stoi`. -/
def stoi (s : List Char) : Except YamlAbort ℤ :=
  if Text.number s < 2 ^ 31 then .ok (Text.number s) else .error .outOfRange

/-- `std::stoll`. -/
def stoll (s : List Char) : Except YamlAbort ℤ :=
  if Text.number s < 2 ^ 63 then .ok (Text.number s) else .error .outOfRange

/-- `Aux::isNumber`. -/
def isNumber (s : List Char) : Bool := !s.isEmpty && s.all Char.isDigit

/-- `\d+`. -/
def numberRgx : Regex.Item Char := ⟨Char.isDigit, .plus, false⟩

/-- `parseVector`. -/
def parseVector (v : List Char) : Except YamlAbort (List ℤ) :=
  (Regex.findAll [numberRgx] v.length v).mapM stoi

/-- `buildValue`. -/
def buildValue (v : List Char) : Except YamlAbort Value :=
  if isNumber v then do
    let n ← stoll v
    return .number n
  else if v.head? = some '[' then do
    let ns ← parseVector v
    return .vector ns
  else if v = "true".toList then return .bool true
  else if v = "false".toList then return .bool false
  else return .string v

theorem mapM_stoi_ne_fuel (vs : List (List Char)) : vs.mapM stoi ≠ .error .fuel := by
  induction vs with
  | nil => exact nofun
  | cons v vs ih =>
    rw [List.mapM_cons]
    by_cases hv : Text.number v < 2 ^ 31
    · have hstoi : stoi v = .ok (Text.number v) := if_pos hv
      cases h : vs.mapM stoi with
      | ok ns => simp [hstoi, bind, Except.bind, pure, Except.pure]
      | error e =>
        rw [h] at ih
        simpa [hstoi, bind, Except.bind] using ih
    · have hstoi : stoi v = .error .outOfRange := if_neg hv
      simp [hstoi, bind, Except.bind]

theorem buildValue_ne_fuel (v : List Char) : buildValue v ≠ .error .fuel := by
  unfold buildValue stoll parseVector
  split_ifs
  · exact nofun
  · exact nofun
  · have hne := mapM_stoi_ne_fuel (Regex.findAll [numberRgx] v.length v)
    cases h : (Regex.findAll [numberRgx] v.length v).mapM stoi with
    | ok ns => exact nofun
    | error e =>
      rw [h] at hne
      simpa [bind, Except.bind] using hne
  · exact nofun
  · exact nofun
  · exact nofun

/-! ### Lines -/

/-- `[_a-zA-Z]`. -/
def isKeyChar (c : Char) : Bool := c = '_' || c.isAlpha

/-- `.`, which is no end of a line. -/
def isDot (c : Char) : Bool := c ≠ '\n' && c ≠ '\r'

/-- `([_a-zA-Z]+)`. -/
def keyItem : Regex.Item Char := ⟨isKeyChar, .plus, true⟩

/-- `:`. -/
def colonItem : Regex.Item Char := ⟨(· = ':'), .one, false⟩

/-- `([_a-zA-Z]+):\s(.*)`. -/
def leafRgx : List (Regex.Item Char) :=
  [keyItem, colonItem, ⟨Text.isSpace, .one, false⟩, ⟨isDot, .star, true⟩]

/-- `([_a-zA-Z]+):\s*`. -/
def subRgx : List (Regex.Item Char) := [keyItem, colonItem, ⟨Text.isSpace, .star, false⟩]

/-- `is_startswith_space`. -/
def isStartswithSpace (s : List Char) (level : ℕ) : Bool :=
  if s.length < level then false else (s.take level).all Text.isSpace

/-- What a line that is not empty is, for the two expressions. -/
inductive LineKind where
  | leaf (key value : List Char)
  | sub (key : List Char)
  | unknown

/-- The two searches. -/
def lineKind (line : List Char) : LineKind :=
  match (Regex.search leafRgx line).map Regex.Match.groups with
  | some [key, value] => .leaf key value
  | _ =>
    match (Regex.search subRgx line).map Regex.Match.groups with
    | some [key] => .sub key
    | _ => .unknown

/-! ### The parser -/

/-- `FileReader`. -/
structure FileReader where
  /-- `fin_`. -/
  fin : Istream Char
  /-- `old_pos_`. -/
  oldPos : ℤ

namespace FileReader

/-- The reader of an opened file. -/
def init (text : List Char) : FileReader := ⟨.ofContent text, 0⟩

/-- `readLine`: whether there is a line, and the line. -/
def readLine (fr : FileReader) : Bool × List Char × FileReader :=
  let (pos, fin) := fr.fin.tellg
  let (l, fin) := fin.getline '\n' []
  (!fin.failbit, l, ⟨fin, pos⟩)

/-- `pushBackLine`. -/
def pushBackLine (fr : FileReader) : FileReader := { fr with fin := fr.fin.seekg fr.oldPos }

end FileReader

/-- `parseImpl`, from some iteration of its loop on. -/
def parseImpl : ℕ → ℕ → Table → FileReader → Except YamlAbort (Table × FileReader)
  | 0, _, _, _ => .error .fuel
  | fuel + 1, level, table, fr =>
    let (ok, line, fr) := fr.readLine
    if !ok then .ok (table, fr)
    else if line.isEmpty then parseImpl fuel level table fr
    else if !isStartswithSpace line level then
      if level = 0 then .error .topLevel else .ok (table, fr.pushBackLine)
    else
      match lineKind line with
      | .leaf key value => do
        let v ← buildValue value
        parseImpl fuel level (addValue key v table) fr
      | .sub key => do
        let (sub, fr) ← parseImpl fuel (level + 2) [] fr
        parseImpl fuel level (addValue key (.yaml sub) table) fr
      | .unknown => .error .unknownLine

/-- `parse`, for the text of the file. -/
def parse (text : List Char) : Except YamlAbort Value := do
  let (table, _) ← parseImpl (text.length + 1) 0 [] (.init text)
  return .yaml table

/-! ### The parser on lines -/

/-- The loop of `parseImpl` on the lines that are left, when nothing stops it: the table it returns, and the lines that
it leaves. -/
inductive Parses : ℕ → Table → List (List Char) → Table → List (List Char) → Prop where
  /-- The end of the file. -/
  | done {level : ℕ} {table : Table} : Parses level table [] table []
  /-- An empty line. -/
  | blank {level : ℕ} {table table' : Table} {ls rest : List (List Char)} (h : Parses level table ls table' rest) :
      Parses level table ([] :: ls) table' rest
  /-- A line of an enclosing table is pushed back. -/
  | outdent {level : ℕ} {table : Table} {line : List Char} {ls : List (List Char)} (hne : line ≠ [])
      (hspace : isStartswithSpace line level = false) (hlevel : level ≠ 0) :
      Parses level table (line :: ls) table (line :: ls)
  /-- `key: value`. -/
  | leaf {level : ℕ} {table table' : Table} {line key value : List Char} {v : Value} {ls rest : List (List Char)}
      (hne : line ≠ []) (hspace : isStartswithSpace line level = true) (hkind : lineKind line = .leaf key value)
      (hv : buildValue value = .ok v) (h : Parses level (addValue key v table) ls table' rest) :
      Parses level table (line :: ls) table' rest
  /-- `key:`, and the lines of its table. -/
  | sub {level : ℕ} {table sub table' : Table} {line key : List Char} {ls mid rest : List (List Char)}
      (hne : line ≠ []) (hspace : isStartswithSpace line level = true) (hkind : lineKind line = .sub key)
      (hsub : Parses (level + 2) [] ls sub mid) (h : Parses level (addValue key (.yaml sub) table) mid table' rest) :
      Parses level table (line :: ls) table' rest

namespace FileReader

/-- The lines that the reader has yet to return. -/
def Ahead (fr : FileReader) (ls : List (List Char)) : Prop := Istream.Ahead '\n' fr.fin ls

variable {fr : FileReader} {line : List Char} {ls : List (List Char)}

theorem ahead_init (text : List Char) : Ahead (init text) (Istream.lines '\n' text) :=
  Istream.ahead_ofContent text

/-- **A line**, which may be pushed back. -/
theorem Ahead.readLine (h : fr.Ahead (line :: ls)) : ∃ fr', fr.readLine = (true, line, fr') ∧ fr'.Ahead ls ∧
    fr'.pushBackLine.Ahead (line :: ls) := by
  have hgood := Istream.Ahead.good h
  obtain ⟨fin, hget, hfail, hcontent, hahead⟩ := Istream.Ahead.getline h []
  refine ⟨⟨fin, fr.fin.pos⟩, ?_, hahead, ?_⟩
  · simp [FileReader.readLine, Istream.tellg_of_good hgood, hget, hfail]
  · exact Istream.Ahead.seekg_back h hgood hcontent hfail

/-- **The end** of the file. -/
theorem Ahead.readLine_end (h : fr.Ahead []) : ∃ line fr', fr.readLine = (false, line, fr') ∧ fr'.Ahead [] := by
  obtain ⟨hfail, hahead⟩ := Istream.Ahead.getline_end (Istream.Ahead.tellg h) []
  refine ⟨(fr.fin.tellg.2.getline '\n' []).1, ⟨_, fr.fin.tellg.1⟩, ?_, hahead⟩
  simp only [FileReader.readLine, hfail, Bool.not_true]

end FileReader

variable {level fuel : ℕ} {table table' : Table} {line key value : List Char} {ls rest : List (List Char)}
  {fr fr' : FileReader}

theorem Parses.length_le (h : Parses level table ls table' rest) : rest.length ≤ ls.length := by
  induction h with
  | done | outdent => exact le_rfl
  | blank _ ih | leaf _ _ _ _ _ ih => exact ih.trans (Nat.le_succ _)
  | sub _ _ _ _ _ ihsub ih => exact (ih.trans ihsub).trans (Nat.le_succ _)

/-! One iteration, for each kind of line. -/

theorem parseImpl_end (h : fr.Ahead []) :
    ∃ fr', parseImpl (fuel + 1) level table fr = .ok (table, fr') ∧ fr'.Ahead [] := by
  obtain ⟨line, fr', hread, hahead⟩ := h.readLine_end
  exact ⟨fr', by simp [parseImpl, hread], hahead⟩

/-- The iteration on a line. -/
theorem parseImpl_line (h : fr.Ahead (line :: ls)) : ∃ fr', fr'.Ahead ls ∧ fr'.pushBackLine.Ahead (line :: ls) ∧
    parseImpl (fuel + 1) level table fr =
      if line = [] then parseImpl fuel level table fr'
      else if isStartswithSpace line level = false then
        if level = 0 then .error .topLevel else .ok (table, fr'.pushBackLine)
      else
        match lineKind line with
        | .leaf key value => do
          let v ← buildValue value
          parseImpl fuel level (addValue key v table) fr'
        | .sub key => do
          let (sub, fr) ← parseImpl fuel (level + 2) [] fr'
          parseImpl fuel level (addValue key (.yaml sub) table) fr
        | .unknown => .error .unknownLine := by
  obtain ⟨fr', hread, hahead, hback⟩ := h.readLine
  refine ⟨fr', hahead, hback, ?_⟩
  rw [parseImpl, hread]
  simp only [Bool.not_true, Bool.false_eq_true, if_false, List.isEmpty_iff, Bool.not_eq_true']

/-- **The parser** returns what it returns on the lines. -/
theorem parseImpl_of_parses (h : Parses level table ls table' rest) (hahead : fr.Ahead ls) (hfuel : ls.length < fuel) :
    ∃ fr', parseImpl fuel level table fr = .ok (table', fr') ∧ fr'.Ahead rest := by
  induction h generalizing fuel fr with
  | done =>
    obtain ⟨fuel, rfl⟩ := Nat.exists_eq_add_one_of_ne_zero (Nat.ne_zero_of_lt hfuel)
    exact parseImpl_end hahead
  | blank h ih =>
    obtain ⟨fuel, rfl⟩ := Nat.exists_eq_add_one_of_ne_zero (Nat.ne_zero_of_lt hfuel)
    obtain ⟨fr₁, hahead₁, -, hstep⟩ := @parseImpl_line _ fuel _ _ _ _ hahead
    rw [hstep, if_pos rfl]
    exact ih hahead₁ (Nat.lt_of_succ_lt_succ hfuel)
  | outdent hne hspace hlevel =>
    obtain ⟨fuel, rfl⟩ := Nat.exists_eq_add_one_of_ne_zero (Nat.ne_zero_of_lt hfuel)
    obtain ⟨fr₁, -, hback, hstep⟩ := @parseImpl_line _ fuel _ _ _ _ hahead
    rw [hstep, if_neg hne, if_pos hspace, if_neg hlevel]
    exact ⟨_, rfl, hback⟩
  | leaf hne hspace hkind hv h ih =>
    obtain ⟨fuel, rfl⟩ := Nat.exists_eq_add_one_of_ne_zero (Nat.ne_zero_of_lt hfuel)
    obtain ⟨fr₁, hahead₁, -, hstep⟩ := @parseImpl_line _ fuel _ _ _ _ hahead
    rw [hstep, if_neg hne, if_neg (by simp [hspace]), hkind]
    obtain ⟨fr', hrest, hahead'⟩ := ih hahead₁ (Nat.lt_of_succ_lt_succ hfuel)
    exact ⟨fr', by simp only [hv, hrest, bind, Except.bind], hahead'⟩
  | sub hne hspace hkind hsub h ihsub ih =>
    obtain ⟨fuel, rfl⟩ := Nat.exists_eq_add_one_of_ne_zero (Nat.ne_zero_of_lt hfuel)
    obtain ⟨fr₁, hahead₁, -, hstep⟩ := @parseImpl_line _ fuel _ _ _ _ hahead
    rw [hstep, if_neg hne, if_neg (by simp [hspace]), hkind]
    have hlt := Nat.lt_of_succ_lt_succ hfuel
    obtain ⟨fr₂, hmid, hahead₂⟩ := ihsub hahead₁ hlt
    obtain ⟨fr', hrest, hahead'⟩ := ih hahead₂ (hsub.length_le.trans_lt hlt)
    exact ⟨fr', by simp only [hmid, hrest, bind, Except.bind], hahead'⟩

/-- **What the parser returns** is what it returns on the lines. -/
theorem parses_of_parseImpl (h : parseImpl fuel level table fr = .ok (table', fr')) (hahead : fr.Ahead ls) :
    ∃ rest, fr'.Ahead rest ∧ Parses level table ls table' rest := by
  induction fuel generalizing level table ls fr table' fr' with
  | zero => cases h
  | succ fuel ih =>
    cases ls with
    | nil =>
      obtain ⟨fr₁, hstep, hahead₁⟩ := @parseImpl_end level fuel table _ hahead
      rw [hstep] at h
      cases h
      exact ⟨[], hahead₁, .done⟩
    | cons line ls =>
      obtain ⟨fr₁, hahead₁, hback, hstep⟩ := @parseImpl_line level fuel table _ _ _ hahead
      rw [hstep] at h
      split_ifs at h with hempty hspace hlevel
      · obtain ⟨rest, hrest, hparses⟩ := ih h hahead₁
        exact ⟨rest, hrest, hempty ▸ .blank hparses⟩
      · cases h
        exact ⟨_, hback, .outdent hempty hspace hlevel⟩
      · have hspace := Bool.eq_true_of_not_eq_false hspace
        cases hkind : lineKind line with
        | unknown =>
          rw [hkind] at h
          cases h
        | leaf key value =>
          rw [hkind] at h
          dsimp only at h
          cases hv : buildValue value with
          | error e =>
            rw [hv] at h
            cases h
          | ok v =>
            rw [hv] at h
            obtain ⟨rest, hrest, hparses⟩ := ih h hahead₁
            exact ⟨rest, hrest, .leaf hempty hspace hkind hv hparses⟩
        | sub key =>
          rw [hkind] at h
          dsimp only at h
          cases hsub : parseImpl fuel (level + 2) [] fr₁ with
          | error e =>
            rw [hsub] at h
            cases h
          | ok r =>
            rw [hsub] at h
            obtain ⟨mid, hmid, hparses⟩ := ih hsub hahead₁
            obtain ⟨rest, hrest, hparses'⟩ := ih h hmid
            exact ⟨rest, hrest, .sub hempty hspace hkind hparses hparses'⟩

/-- The parser takes no more steps than there are lines. -/
theorem parseImpl_ne_fuel (hahead : fr.Ahead ls) (hfuel : ls.length < fuel) :
    parseImpl fuel level table fr ≠ .error .fuel := by
  induction fuel generalizing level table ls fr with
  | zero => exact absurd hfuel (Nat.not_lt_zero _)
  | succ fuel ih =>
    cases ls with
    | nil =>
      obtain ⟨fr₁, hstep, -⟩ := @parseImpl_end level fuel table _ hahead
      rw [hstep]
      exact nofun
    | cons line ls =>
      obtain ⟨fr₁, hahead₁, -, hstep⟩ := @parseImpl_line level fuel table _ _ _ hahead
      have hlt := Nat.lt_of_succ_lt_succ hfuel
      rw [hstep]
      split_ifs with hempty hspace hlevel
      · exact ih hahead₁ hlt
      · exact nofun
      · exact nofun
      · cases lineKind line with
        | unknown => exact nofun
        | leaf key value =>
          dsimp only
          cases hv : buildValue value with
          | ok v => exact ih hahead₁ hlt
          | error e =>
            intro h
            cases h
            exact buildValue_ne_fuel value hv
        | sub key =>
          dsimp only
          cases hsub : parseImpl fuel (level + 2) [] fr₁ with
          | ok r =>
            obtain ⟨mid, hmid, hparses⟩ := parses_of_parseImpl hsub hahead₁
            exact ih hmid (hparses.length_le.trans_lt hlt)
          | error e =>
            intro h
            cases h
            exact ih hahead₁ hlt hsub

/-- **The parser returns**, or an `assert` or an exception stops it. -/
theorem parse_ne_fuel (text : List Char) : parse text ≠ .error .fuel := by
  have hlt : (Istream.lines '\n' text).length < text.length + 1 := Nat.lt_succ_of_le (Istream.length_lines_le text)
  have hne := @parseImpl_ne_fuel 0 _ [] _ _ (FileReader.ahead_init text) hlt
  unfold parse
  cases h : parseImpl (text.length + 1) 0 [] (.init text) with
  | ok r => exact nofun
  | error e =>
    intro he
    cases he
    exact hne h

/-- On the level of the file nothing is pushed back. -/
theorem Parses.rest_eq_nil (h : Parses level table ls table' rest) (hlevel : level = 0) : rest = [] := by
  induction h with
  | done => rfl
  | outdent hne hspace hne' => exact absurd hlevel hne'
  | blank h ih => exact ih hlevel
  | leaf hne hspace hkind hv h ih => exact ih hlevel
  | sub hne hspace hkind hsub h ihsub ih => exact ih hlevel

/-- **The parser on a whole file**. -/
theorem parse_eq_ok_iff {text : List Char} {v : Value} :
    parse text = .ok v ↔ ∃ table, v = .yaml table ∧ Parses 0 [] (Istream.lines '\n' text) table [] := by
  constructor
  · intro h
    unfold parse at h
    cases hparse : parseImpl (text.length + 1) 0 [] (.init text) with
    | error e =>
      rw [hparse] at h
      cases h
    | ok r =>
      rw [hparse] at h
      cases h
      obtain ⟨rest, -, hparses⟩ := parses_of_parseImpl hparse (FileReader.ahead_init text)
      obtain rfl := hparses.rest_eq_nil rfl
      exact ⟨r.1, rfl, hparses⟩
  · rintro ⟨table, rfl, hparses⟩
    obtain ⟨fr', hparse, -⟩ := parseImpl_of_parses hparses (FileReader.ahead_init text)
      (Nat.lt_succ_of_le (Istream.length_lines_le text))
    rw [parse, hparse]
    rfl

end Yaml

end Schnauzer
