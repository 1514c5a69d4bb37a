import Schnauzer.Detect.InstRace
import Schnauzer.Instrument.CollectSrcInfo
import Schnauzer.Scripts.Race
import Mathlib.Data.List.Induction

/-!
# The table of instructions

`common/SrcInfoDB`: the instructions that the instrumentation meets are put into a table, under
their ids, each with its place in the source and a letter for what it does. The statements are
data, with the texts that `Aux::format` makes of them; `exec` is what sqlite does with them,
for texts in quotes that hold no quote and no null character. A step is `none` where the
process stops: in an `assert`, or because sqlite reports an error.

An id is printed with `%lld`, so that the key in the table is signed.

## What is proved

* `insertAll_filter` — the row of an id after any calls: the text of the last call, and the letter
  of the first.
* `keepsLast_iff` — the table holds the last record of every id exactly when the letter of its last
  call is that of its first.
-/

namespace Schnauzer

open Scripts Text

namespace SrcInfoDB

/-- The quote of SQL. -/
def quote : Char := Char.ofNat 39

/-- The null character. -/
def nul : Char := Char.ofNat 0

/-- A row of the table `instructions`. -/
structure Row where
  /-- `inst_id`, the primary key. -/
  instId : ℤ
  /-- `inst_info`. -/
  instInfo : Str
  /-- `inst_op`. -/
  instOp : Str
  deriving DecidableEq

/-- The table `instructions`. -/
abbrev Table := List Row

/-- The number that `%lld` prints. -/
def lld (id : UInt64) : ℤ := id.toBitVec.toInt

/-- `%lld`. -/
def lldText (id : UInt64) : Str :=
  if lld id < 0 then '-' :: decimal (lld id).natAbs else decimal (lld id).natAbs

/-- The statements that are issued. -/
inductive Stmt where
  /-- `INSERT INTO instructions VALUES(%lld, '%s', '%c')`. -/
  | insert (instId : UInt64) (instInfo : Str) (op : Char)
  /-- `UPDATE instructions SET inst_info = '%s' WHERE inst_id = %lld;`. -/
  | update (instInfo : Str) (instId : UInt64)
  /-- `SELECT inst_info FROM instructions WHERE inst_id == %lld`. -/
  | select (instId : UInt64)

/-- A text in quotes. -/
def quoted (s : Str) : Str := quote :: s ++ [quote]

/-- The text that is made of `stmt_format` in `insertInstruction`. -/
def insertText (instId : UInt64) (instInfo : Str) (op : Char) : Str :=
  "INSERT INTO instructions VALUES(".toList ++ lldText instId ++ ", ".toList ++ quoted instInfo ++ ", ".toList ++
    quoted [op] ++ ")".toList

/-- The text that is made of `stmt_format` in `updateInstruction`. -/
def updateText (instInfo : Str) (instId : UInt64) : Str :=
  "UPDATE instructions SET inst_info = ".toList ++ quoted instInfo ++ List.replicate 32 ' ' ++
    "WHERE inst_id = ".toList ++ lldText instId ++ ";".toList

/-- The text that is made of `stmt_format` in `findInstructionInfo`. -/
def selectText (instId : UInt64) : Str :=
  "SELECT inst_info FROM instructions WHERE inst_id == ".toList ++ lldText instId

/-- The text of a statement. -/
def Stmt.text : Stmt → Str
  | .insert instId instInfo op => insertText instId instInfo op
  | .update instInfo instId => updateText instInfo instId
  | .select instId => selectText instId

/-- What sqlite reads of a text in quotes. -/
def literal (s : Str) : Option Str := if quote ∈ s ∨ nul ∈ s then none else some s

/-- What sqlite does: the table afterwards, and the values that it selects. A key is there once. -/
def exec (t : Table) : Stmt → Option (Table × List Str)
  | .insert instId instInfo op => do
    let instInfo ← literal instInfo
    let op ← literal [op]
    if t.any fun r => r.instId = lld instId then none
    else return (t ++ [⟨lld instId, instInfo, op⟩], [])
  | .update instInfo instId => do
    let instInfo ← literal instInfo
    return (t.map fun r => if r.instId = lld instId then { r with instInfo := instInfo } else r, [])
  | .select instId => some (t, (t.filter fun r => r.instId = lld instId).map Row.instInfo)

/-- `Aux::format` and `DB::exec`. -/
def run (t : Table) (stmt : Stmt) : Option (Table × List Str) := do
  let _ ← (Aux.format stmt.text).toOption
  exec t stmt

/-- The sentinel. -/
def NULL : Str := "NULL".toList

/-- `SrcInfoDB::findInstructionInfo`: the callback keeps the last value. -/
def findInstructionInfo (t : Table) (instId : UInt64) : Option Str := do
  let (_, vals) ← run t (.select instId)
  return vals.foldl (fun _ v => v) NULL

/-- `SrcInfoDB::instructionExists`. -/
def instructionExists (t : Table) (instId : UInt64) : Option Bool := do
  let instInfo ← findInstructionInfo t instId
  return instInfo ≠ NULL

/-- `SrcInfoDB::updateInstruction`. -/
def updateInstruction (t : Table) (instId : UInt64) (instInfo : Str) : Option Table := do
  let (t, _) ← run t (.update instInfo instId)
  return t

/-- `SrcInfoDB::insertInstruction`. -/
def insertInstruction (t : Table) (instId : UInt64) (instInfo : Str) (op : Char) : Option Table := do
  if ← instructionExists t instId then updateInstruction t instId instInfo
  else
    let (t, _) ← run t (.insert instId instInfo op)
    return t

/-- A call of `insertInstruction`. -/
structure Insert where
  /-- The id. -/
  instId : UInt64
  /-- The place in the source. -/
  instInfo : Str
  /-- What the instruction does. -/
  op : Char

/-- Calls one after the other. -/
def insertAll (t : Table) (calls : List Insert) : Option Table :=
  calls.foldlM (fun t c => insertInstruction t c.instId c.instInfo c.op) t

/-- `SrcInfoDB.lookup` of `scripts/SrcInfo.py`: the row, if there is exactly one. -/
def lookup (t : Table) (instId : ℤ) : Option (Str × Str) :=
  match t.filter fun r => r.instId = instId with
  | [r] => some (r.instInfo, r.instOp)
  | _ => none

/-- A text that goes into a statement as it is, and a letter that does. -/
structure Insert.Plain (c : Insert) : Prop where
  /-- No quote, and no null character, in the text. -/
  instInfo : quote ∉ c.instInfo ∧ nul ∉ c.instInfo
  /-- It is not the sentinel. -/
  ne_null : c.instInfo ≠ NULL
  /-- The letter is neither. -/
  op : c.op ≠ quote ∧ c.op ≠ nul
  /-- `Aux::format` accepts either statement. -/
  short : (Stmt.insert c.instId c.instInfo c.op).text.length < 1024 - 1 ∧
    (Stmt.update c.instInfo c.instId).text.length < 1024 - 1

/-- Every id that was inserted has one row, which holds the text and the letter of its last call. -/
def KeepsLast (calls : List Insert) : Prop :=
  ∃ t, insertAll [] calls = some t ∧
    ∀ c, calls.reverse.find? (·.instId = c.instId) = some c →
      t.filter (fun r => r.instId = lld c.instId) = [⟨lld c.instId, c.instInfo, [c.op]⟩]

/-! ### The statements -/

variable {t : Table} {id id' : UInt64} {c : Insert} {r : Row}

theorem lld_inj : lld id = lld id' ↔ id = id' := by
  rw [lld, lld, BitVec.toInt_inj, UInt64.toBitVec_inj]

theorem length_lldText (id : UInt64) : (lldText id).length ≤ 21 := by
  have hlt := BitVec.toInt_lt (x := id.toBitVec)
  have hle := BitVec.le_toInt (x := id.toBitVec)
  have habs : (lld id).natAbs < 2 ^ 64 := by
    unfold lld
    omega
  have hlen := length_decimal habs
  unfold lldText
  split_ifs
  · exact Nat.succ_le_succ hlen
  · exact hlen.trans (Nat.le_succ _)

/-- What is found of an id. -/
theorem findInstructionInfo_eq (t : Table) (id : UInt64) :
    findInstructionInfo t id =
      some (((t.filter fun r => r.instId = lld id).map Row.instInfo).foldl (fun _ v => v) NULL) := by
  have hlen : (Stmt.select id).text.length = 52 + (lldText id).length := List.length_append
  have hid := length_lldText id
  have hshort : (Stmt.select id).text.length < 1024 - 1 := by omega
  rw [findInstructionInfo, run, Aux.format_ok hshort]
  rfl

theorem literal_instInfo (hc : c.Plain) : literal c.instInfo = some c.instInfo :=
  if_neg (not_or.mpr hc.instInfo)

theorem literal_op (hc : c.Plain) : literal [c.op] = some [c.op] := by
  refine if_neg (not_or.mpr ⟨fun h => hc.op.1 ?_, fun h => hc.op.2 ?_⟩)
  · exact (List.mem_singleton.mp h).symm
  · exact (List.mem_singleton.mp h).symm

/-- The first call for an id inserts a row. -/
theorem insert_new (hc : c.Plain) (ht : (t.filter fun r => r.instId = lld c.instId) = []) :
    insertInstruction t c.instId c.instInfo c.op = some (t ++ [⟨lld c.instId, c.instInfo, [c.op]⟩]) := by
  have hany : (t.any fun r => r.instId = lld c.instId) = false := by
    rw [List.any_eq_false]
    exact List.filter_eq_nil_iff.mp ht
  have hex : instructionExists t c.instId = some false := by
    rw [instructionExists, findInstructionInfo_eq, ht]
    rfl
  rw [insertInstruction, hex, run, Aux.format_ok hc.short.1]
  simp [exec, literal_instInfo hc, literal_op hc, hany]

/-- A later call changes the text of the row, and nothing else. -/
theorem insert_again (hc : c.Plain) (ht : (t.filter fun r => r.instId = lld c.instId) = [r])
    (hr : r.instInfo ≠ NULL) :
    insertInstruction t c.instId c.instInfo c.op = some
      (t.map fun r => if r.instId = lld c.instId then { r with instInfo := c.instInfo } else r) := by
  have hex : instructionExists t c.instId = some true := by
    rw [instructionExists, findInstructionInfo_eq, ht]
    simpa using hr
  rw [insertInstruction, hex]
  simp only [Option.bind_eq_bind, Option.bind_some, if_true]
  rw [updateInstruction, run, Aux.format_ok hc.short.2]
  simp [exec, literal_instInfo hc]

/-! ### Calls -/

/-- The row of an id: the text of the last call for it, the letter of the first. -/
def rowOf (calls : List Insert) (id : UInt64) : Option Row := do
  let first ← calls.find? (·.instId = id)
  let last ← calls.reverse.find? (·.instId = id)
  return ⟨lld id, last.instInfo, [first.op]⟩

/-- An id has a first call when it has a last one. -/
theorem find_reverse_isSome {calls : List Insert} :
    (calls.reverse.find? (·.instId = id)).isSome = (calls.find? (·.instId = id)).isSome := by
  rw [Bool.eq_iff_iff, List.find?_isSome, List.find?_isSome]
  simp

theorem rowOf_append_of_ne {calls : List Insert} (h : c.instId ≠ id) :
    rowOf (calls ++ [c]) id = rowOf calls id := by
  simp [rowOf, h]

/-- The first call for an id. -/
theorem rowOf_append_none {calls : List Insert} (h : rowOf calls c.instId = none) :
    rowOf (calls ++ [c]) c.instId = some ⟨lld c.instId, c.instInfo, [c.op]⟩ := by
  have hnone : calls.find? (·.instId = c.instId) = none := by
    cases hf : calls.find? (·.instId = c.instId) with
    | none => rfl
    | some first =>
      obtain ⟨last, hl⟩ := Option.isSome_iff_exists.mp (find_reverse_isSome.trans (by rw [hf]; rfl))
      rw [rowOf, hf, Option.bind_eq_bind, Option.bind_some, hl] at h
      cases h
  rw [rowOf, List.find?_append, hnone]
  simp

/-- A later call keeps the letter. -/
theorem rowOf_append_some {calls : List Insert} (h : rowOf calls c.instId = some r) :
    rowOf (calls ++ [c]) c.instId = some { r with instInfo := c.instInfo } := by
  obtain ⟨first, hf, h⟩ := Option.bind_eq_some_iff.mp h
  obtain ⟨last, hl, h⟩ := Option.bind_eq_some_iff.mp h
  cases h
  rw [rowOf, List.find?_append, hf]
  simp

/-- The text of a row is the text of a call for it. -/
theorem exists_of_rowOf {calls : List Insert} (h : rowOf calls id = some r) :
    r.instId = lld id ∧ ∃ c ∈ calls, c.instInfo = r.instInfo := by
  obtain ⟨first, -, h⟩ := Option.bind_eq_some_iff.mp h
  obtain ⟨last, hl, h⟩ := Option.bind_eq_some_iff.mp h
  cases h
  exact ⟨rfl, last, List.mem_reverse.mp (List.mem_of_find?_eq_some hl), rfl⟩

theorem filter_map_update (t : Table) (id : UInt64) (info : Str) (id' : UInt64) :
    ((t.map fun r => if r.instId = lld id then { r with instInfo := info } else r).filter
        fun r => r.instId = lld id') =
      (t.filter fun r => r.instId = lld id').map
        fun r => if r.instId = lld id then { r with instInfo := info } else r := by
  rw [List.filter_map]
  congr 1
  apply List.filter_congr
  intro r _
  simp only [Function.comp]
  split_ifs <;> rfl

/-- The row that the first call for an id inserts. -/
theorem filter_insert_new {calls : List Insert}
    (hrow : ∀ id, (t.filter fun r => r.instId = lld id) = (rowOf calls id).toList)
    (hr : rowOf calls c.instId = none) (id : UInt64) :
    (List.filter (fun r => r.instId = lld id) (t ++ [⟨lld c.instId, c.instInfo, [c.op]⟩])) =
      (rowOf (calls ++ [c]) id).toList := by
  rw [List.filter_append, hrow id]
  by_cases hid : c.instId = id
  · subst hid
    rw [hr, rowOf_append_none hr]
    simp
  · have hne : lld c.instId ≠ lld id := fun heq => hid (lld_inj.mp heq)
    rw [rowOf_append_of_ne hid]
    simp [hne]

/-- The row that a later call changes. -/
theorem filter_insert_again {calls : List Insert}
    (hrow : ∀ id, (t.filter fun r => r.instId = lld id) = (rowOf calls id).toList)
    (hr : rowOf calls c.instId = some r) (id : UInt64) :
    ((t.map fun r => if r.instId = lld c.instId then { r with instInfo := c.instInfo } else r).filter
        fun r => r.instId = lld id) = (rowOf (calls ++ [c]) id).toList := by
  obtain ⟨hkey, -⟩ := exists_of_rowOf hr
  rw [filter_map_update, hrow id]
  by_cases hid : c.instId = id
  · subst hid
    rw [hr, rowOf_append_some hr]
    simp [hkey]
  · rw [rowOf_append_of_ne hid]
    cases hr' : rowOf calls id with
    | none => rfl
    | some r' =>
      have hne : r'.instId ≠ lld c.instId := by
        rw [(exists_of_rowOf hr').1]
        exact fun heq => hid (lld_inj.mp heq).symm
      simp [hne]

/-- **What the table holds**: of every id the row of its calls. -/
theorem insertAll_filter {calls : List Insert} (h : ∀ c ∈ calls, c.Plain) :
    ∃ t, insertAll [] calls = some t ∧
      ∀ id, (t.filter fun r => r.instId = lld id) = (rowOf calls id).toList := by
  induction calls using List.reverseRecOn with
  | nil => exact ⟨[], rfl, fun id => rfl⟩
  | append_singleton calls c ih =>
    obtain ⟨t, ht, hrow⟩ := ih fun c' hc' => h c' (List.mem_append_left _ hc')
    have hc := h c (List.mem_append_right _ List.mem_cons_self)
    have happ : insertAll [] (calls ++ [c]) = insertInstruction t c.instId c.instInfo c.op := by
      rw [insertAll, List.foldlM_append, ← insertAll, ht]
      simp
    have hself := hrow c.instId
    cases hr : rowOf calls c.instId with
    | none =>
      rw [hr] at hself
      exact ⟨_, happ.trans (insert_new hc hself), filter_insert_new hrow hr⟩
    | some r =>
      rw [hr] at hself
      obtain ⟨-, c', hc', hinfo⟩ := exists_of_rowOf hr
      have hnull : r.instInfo ≠ NULL := hinfo ▸ (h c' (List.mem_append_left _ hc')).ne_null
      exact ⟨_, happ.trans (insert_again hc hself hnull), filter_insert_again hrow hr⟩

/-- What a call did that came back: it inserted a row, or changed one. -/
theorem insertInstruction_eq_some {t' : Table} (h : insertInstruction t c.instId c.instInfo c.op = some t') :
    ((t.filter fun r => r.instId = lld c.instId) = [] ∧ t' = t ++ [⟨lld c.instId, c.instInfo, [c.op]⟩]) ∨
      ((t.filter fun r => r.instId = lld c.instId) ≠ [] ∧
        t' = t.map fun r => if r.instId = lld c.instId then { r with instInfo := c.instInfo } else r) := by
  have hliteral : ∀ {s s'}, literal s = some s' → s' = s := by
    intro s s' hs
    unfold literal at hs
    split_ifs at hs
    exact (Option.some.inj hs).symm
  obtain ⟨found, hfound, h⟩ := Option.bind_eq_some_iff.mp h
  rw [instructionExists, findInstructionInfo_eq] at hfound
  cases found with
  | true =>
    obtain ⟨⟨t₁, vals⟩, hrun, h⟩ := Option.bind_eq_some_iff.mp h
    obtain ⟨-, -, hrun⟩ := Option.bind_eq_some_iff.mp hrun
    obtain ⟨info, hinfo, hrun⟩ := Option.bind_eq_some_iff.mp hrun
    obtain rfl := hliteral hinfo
    cases hrun
    cases h
    refine Or.inr ⟨fun hnil => ?_, rfl⟩
    rw [hnil] at hfound
    cases hfound
  | false =>
    obtain ⟨⟨t₁, vals⟩, hrun, h⟩ := Option.bind_eq_some_iff.mp h
    obtain ⟨-, -, hrun⟩ := Option.bind_eq_some_iff.mp hrun
    obtain ⟨info, hinfo, hrun⟩ := Option.bind_eq_some_iff.mp hrun
    obtain ⟨op, hop, hrun⟩ := Option.bind_eq_some_iff.mp hrun
    obtain rfl := hliteral hinfo
    obtain rfl := hliteral hop
    split_ifs at hrun with hany
    cases hrun
    cases h
    exact Or.inl ⟨List.filter_eq_nil_iff.mpr (List.any_eq_false.mp (Bool.eq_false_iff.mpr hany)), rfl⟩

/-- What the table holds after calls that came back. -/
theorem filter_of_insertAll {calls : List Insert} (h : insertAll [] calls = some t) (id : UInt64) :
    (t.filter fun r => r.instId = lld id) = (rowOf calls id).toList := by
  induction calls using List.reverseRecOn generalizing t id with
  | nil =>
    cases h
    rfl
  | append_singleton calls c ih =>
    rw [insertAll, List.foldlM_append, ← insertAll] at h
    obtain ⟨t₁, ht₁, h⟩ := Option.bind_eq_some_iff.mp h
    have hrow := fun id => ih ht₁ id
    have hself := hrow c.instId
    rw [List.foldlM_cons] at h
    obtain ⟨t₂, ht₂, h⟩ := Option.bind_eq_some_iff.mp h
    cases h
    obtain ⟨hnil, rfl⟩ | ⟨hne, rfl⟩ := insertInstruction_eq_some ht₂
    · rw [hnil] at hself
      exact filter_insert_new hrow (Option.toList_eq_nil_iff.mp hself.symm) id
    · cases hr : rowOf calls c.instId with
      | none =>
        rw [hr] at hself
        exact absurd hself hne
      | some r => exact filter_insert_again hrow hr id

/-- The row of an id that was inserted. -/
theorem rowOf_eq {calls : List Insert} (hl : calls.reverse.find? (·.instId = id) = some c) :
    ∃ first, calls.find? (·.instId = id) = some first ∧
      rowOf calls id = some ⟨lld id, c.instInfo, [first.op]⟩ := by
  obtain ⟨first, hf⟩ := Option.isSome_iff_exists.mp (find_reverse_isSome.symm.trans (by rw [hl]; rfl))
  refine ⟨first, hf, ?_⟩
  rw [rowOf, hf, hl]
  rfl

/-- The scripts find every id that was inserted, with the text of its last call and the letter of its first. -/
theorem lookup_insertAll {calls : List Insert} (h : ∀ c ∈ calls, c.Plain)
    (hl : calls.reverse.find? (·.instId = id) = some c) :
    ∃ t first, insertAll [] calls = some t ∧ calls.find? (·.instId = id) = some first ∧
      lookup t (lld id) = some (c.instInfo, [first.op]) := by
  obtain ⟨t, ht, hrow⟩ := insertAll_filter h
  obtain ⟨first, hf, hrow'⟩ := rowOf_eq hl
  refine ⟨t, first, ht, hf, ?_⟩
  rw [lookup, hrow id, hrow']
  rfl

/-- The letter of the first call for an id. -/
def firstOp (calls : List Insert) (id : UInt64) : Option Char := (calls.find? (·.instId = id)).map Insert.op

/-- The letter of the last call for an id. -/
def lastOp (calls : List Insert) (id : UInt64) : Option Char :=
  (calls.reverse.find? (·.instId = id)).map Insert.op

/-- **The table of instructions** holds the last record of every id exactly when the last call for an
id comes with the letter of the first. -/
theorem keepsLast_iff {calls : List Insert} (h : ∀ c ∈ calls, c.Plain) :
    KeepsLast calls ↔ ∀ id, lastOp calls id = firstOp calls id := by
  obtain ⟨t, ht, hrow⟩ := insertAll_filter h
  have hkeeps : KeepsLast calls ↔ ∀ c, calls.reverse.find? (·.instId = c.instId) = some c →
      (rowOf calls c.instId).toList = [⟨lld c.instId, c.instInfo, [c.op]⟩] := by
    constructor
    · rintro ⟨t', ht', hlast⟩ c hc
      obtain rfl := Option.some_inj.mp (ht'.symm.trans ht)
      rw [← hrow, hlast c hc]
    · exact fun hlast => ⟨t, ht, fun c hc => (hrow c.instId).trans (hlast c hc)⟩
  rw [hkeeps]
  constructor
  · intro hlast id
    cases hl : calls.reverse.find? (·.instId = id) with
    | none =>
      have hnone : calls.find? (·.instId = id) = none := by
        rw [← Option.not_isSome_iff_eq_none, ← find_reverse_isSome, hl]
        simp
      rw [lastOp, firstOp, hl, hnone]
    | some c =>
      obtain rfl : c.instId = id := by simpa using List.find?_some hl
      obtain ⟨first, hf, hrow'⟩ := rowOf_eq hl
      have heq := hlast c hl
      rw [hrow'] at heq
      simp only [Option.toList_some, List.cons.injEq, Row.mk.injEq, and_true, true_and] at heq
      rw [lastOp, firstOp, hl, hf, Option.map_some, Option.map_some, heq]
  · intro hop c hl
    obtain ⟨first, hf, hrow'⟩ := rowOf_eq hl
    have heq := hop c.instId
    rw [lastOp, firstOp, hl, hf, Option.map_some, Option.map_some, Option.some_inj] at heq
    rw [hrow', heq]
    rfl

/-! ### The instrumentation -/

/-- What an instruction is to `collectSrcInfo`. -/
inductive InstKind where
  /-- `LoadInst`. -/
  | load
  /-- `StoreInst`. -/
  | store
  /-- `CallInst`. -/
  | call
  /-- Any other instruction. -/
  | other

/-- The letter of an instruction that is collected. -/
def InstKind.op : InstKind → Option Char
  | .load => some 'r'
  | .store => some 'w'
  | .call => some 'c'
  | .other => none

/-- The calls of `Instrument::collectSrcInfo` for the instructions of a module, from number `instId` on, each with its
`getSrcLineInfo`; `none` where an `assert` of `computeUniqueId` fails. -/
def collectSrcInfo (modId : UInt64) : UInt64 → List (InstKind × Str) → Option (List Insert)
  | _, [] => some []
  | instId, (kind, info) :: insts => do
    let calls ← collectSrcInfo modId (instId + 1) insts
    match kind.op with
    | none => return calls
    | some op =>
      let id ← Instrument.computeUniqueId modId instId
      return ⟨id, info, op⟩ :: calls

/-- A module of one load. -/
def loadModule : List (InstKind × Str) := [(.load, "a.c:3".toList)]

/-- The module after the load was replaced by a store. -/
def storeModule : List (InstKind × Str) := [(.store, "a.c:3".toList)]

/-- A module is compiled, changed and compiled again: the table still says that the instruction is a load. -/
theorem not_keepsLast_recompiled :
    ∃ xs ys, collectSrcInfo 0 0 loadModule = some xs ∧ collectSrcInfo 0 0 storeModule = some ys ∧
      (∀ c ∈ xs ++ ys, c.Plain) ∧ ¬ KeepsLast (xs ++ ys) := by
  refine ⟨[⟨0, "a.c:3".toList, 'r'⟩], [⟨0, "a.c:3".toList, 'w'⟩], rfl, rfl, ?_, ?_⟩
  · rintro c (_ | ⟨_, _ | ⟨_, ⟨⟩⟩⟩)
    · exact ⟨by decide, by decide, by decide, by decide⟩
    · exact ⟨by decide, by decide, by decide, by decide⟩
  · rintro ⟨t, ht, hlast⟩
    obtain rfl : [⟨0, "a.c:3".toList, ['r']⟩] = t := Option.some_inj.mp (Eq.trans (by decide) ht)
    exact absurd (hlast ⟨0, "a.c:3".toList, 'w'⟩ rfl) (by decide)

/-- Two instructions, and again after a line was added. -/
theorem keepsLast_iff_moved :
    KeepsLast [⟨0, "a.c:3".toList, 'r'⟩, ⟨1, "a.c:4".toList, 'w'⟩, ⟨0, "a.c:4".toList, 'r'⟩] ↔
      ∀ id, lastOp [⟨0, "a.c:3".toList, 'r'⟩, ⟨1, "a.c:4".toList, 'w'⟩, ⟨0, "a.c:4".toList, 'r'⟩] id =
        firstOp [⟨0, "a.c:3".toList, 'r'⟩, ⟨1, "a.c:4".toList, 'w'⟩, ⟨0, "a.c:4".toList, 'r'⟩] id := by
  apply keepsLast_iff
  rintro c (_ | ⟨_, _ | ⟨_, _ | ⟨_, ⟨⟩⟩⟩⟩)
  · exact ⟨by decide, by decide, by decide, by decide⟩
  · exact ⟨by decide, by decide, by decide, by decide⟩
  · exact ⟨by decide, by decide, by decide, by decide⟩

end SrcInfoDB

end Schnauzer
