import Schnauzer.Common.SrcInfoDB
import Schnauzer.Lib.Sessions

/-!
# The table of modules

`common/SrcInfoDB` and `llvm/instrument/LoadFile`: the number of a module is the `rowid` of its name in a table that
all compilers share, each of which looks for the name, inserts it, and looks for it again; it then puts the instructions
of the module into the other table, in one transaction. `make -j` runs many compilers at a time: a compiler is a
session, and its statements are between those of the others. It stops where an `assert` fails or sqlite reports an
error; that a name is inserted twice is one.

## What is proved

* `AllKept` — wherever a build has come to: the numbers are in order, those that were given are still those of
  their names, and the table of instructions has the calls of all that was compiled.
* `allKept_of_build` — it holds in every build.
-/

namespace Schnauzer

open Scripts Text Sessions SrcInfoDB

namespace ModuleTable

/-- A row of the table `modules`. -/
structure ModuleRow where
  /-- `rowid`. -/
  rowid : ℕ
  /-- `module_name`, the primary key. -/
  moduleName : Str

/-- A module that is compiled, with its number and its instructions. -/
structure Compilation where
  name : Str
  modId : UInt64
  insts : List (InstKind × Str)

/-- The file `info.db`, and what was compiled so far. -/
structure Database where
  modules : List ModuleRow
  instructions : Table
  compiled : List Compilation

/-- What is executed. -/
inductive Query where
  /-- `SELECT rowid FROM modules WHERE module_name == '%s'`. -/
  | selectModule (moduleName : Str)
  /-- `INSERT INTO modules VALUES('%s')`. -/
  | insertModule (moduleName : Str)
  /-- The statements of `collectSrcInfo`, from `beginTX` to `endTX`. -/
  | collect (comp : Compilation)

/-- The text that is made of `stmt_format` in `findModuleId`. -/
def selectModuleText (moduleName : Str) : Str :=
  "SELECT rowid FROM modules WHERE module_name == ".toList ++ quoted moduleName

/-- The text that is made of `stmt_format` in `insertModule`. -/
def insertModuleText (moduleName : Str) : Str := "INSERT INTO modules VALUES(".toList ++ quoted moduleName ++ ")".toList

/-- The `rowid` of the next row: one more than the largest. -/
def nextRowid (modules : List ModuleRow) : ℕ := (modules.map ModuleRow.rowid).foldr max 0 + 1

/-- What `collectSrcInfo` inserts. -/
def callsOf (comp : Compilation) : Option (List Insert) := collectSrcInfo comp.modId 0 comp.insts

/-- What sqlite does: the values that it selects, or `none` for an error, with which the compiler stops; what it
did in a transaction is undone then. A `rowid` has 63 bits. -/
def exec (db : Database) : Query → Database × Option (List Str)
  | .selectModule moduleName =>
    match literal moduleName with
    | none => (db, none)
    | some moduleName =>
      (db, some ((db.modules.filter fun r => r.moduleName = moduleName).map fun r => decimal r.rowid))
  | .insertModule moduleName =>
    match literal moduleName with
    | none => (db, none)
    | some moduleName =>
      if (db.modules.any fun r => r.moduleName = moduleName) ∨ 2 ^ 63 ≤ nextRowid db.modules then (db, none)
      else ({ db with modules := db.modules ++ [⟨nextRowid db.modules, moduleName⟩] }, some [])
  | .collect comp =>
    match (callsOf comp).bind (insertAll db.instructions) with
    | none => (db, none)
    | some t => ({ db with instructions := t, compiled := db.compiled ++ [comp] }, some [])

/-- A compiler. -/
abbrev Compiler (α : Type) := Session Query (Option (List Str)) α

/-- `DB::exec`. -/
def run (q : Query) : Compiler (List Str) := do
  match ← ask q with
  | some vals => return vals
  | none => .stop

/-- `Aux::format`. -/
def format (text : Str) : Compiler Unit :=
  match Aux.format text with
  | .ok _ => return ()
  | .error _ => .stop

/-- `UNVALID_MODULE_ID`. -/
def UNVALID_MODULE_ID : UInt64 := UInt64.ofNat (2 ^ 64 - 1)

/-- `std::stoull`, of digits. -/
def stoull (value : Str) : UInt64 := UInt64.ofNat (number value)

/-- `SrcInfoDB::findModuleId`: the callback keeps the last value. -/
def findModuleId (moduleName : Str) : Compiler UInt64 := do
  format (selectModuleText moduleName)
  let vals ← run (.selectModule moduleName)
  return vals.foldl (fun _ value => stoull value) UNVALID_MODULE_ID

/-- `SrcInfoDB::moduleExists`. -/
def moduleExists (moduleName : Str) : Compiler Bool := do
  let moduleId ← findModuleId moduleName
  return moduleId ≠ UNVALID_MODULE_ID

/-- `SrcInfoDB::insertModule`. -/
def insertModule (moduleName : Str) : Compiler Unit := do
  if ← moduleExists moduleName then return ()
  else
    format (insertModuleText moduleName)
    let _ ← run (.insertModule moduleName)
    return ()

/-- `Instrument::loadModuleId`. -/
def loadModuleId (modName : Str) : Compiler UInt64 := do
  if ← moduleExists modName then pure ()
  else insertModule modName
  let modId ← findModuleId modName
  if modId ≠ UNVALID_MODULE_ID then return modId
  else .stop

/-- What `Instrument::runOnModule` does to the database, for a module of a name with these instructions. -/
def compile (input : Str × List (InstKind × Str)) : Compiler Unit := do
  let modId ← loadModuleId input.1
  let _ ← run (.collect ⟨input.1, modId, input.2⟩)
  return ()

/-- The files that the constructors of `SrcInfoDB` make. -/
def Database.empty : Database := ⟨[], [], []⟩

/-- What happens in a build: a compiler is started, or one of them has a turn. -/
abbrev BuildAct := Act (Str × List (InstKind × Str))

/-- A build. -/
def build (acts : List BuildAct) : Option (Config Database Query (Option (List Str)) Unit) :=
  Runs.exec (Sessions.step (fun _ db q => some (exec db q)) compile) ⟨.empty, []⟩ acts

/-! ### What a build keeps -/

/-- The number of a module. -/
def IsId (modules : List ModuleRow) (name : Str) (modId : UInt64) : Prop :=
  ∃ r ∈ modules, r.moduleName = name ∧ modId = UInt64.ofNat r.rowid

/-- What holds in a build. -/
structure AllKept (db : Database) : Prop where
  /-- The rows are numbered. -/
  rowids : db.modules.map ModuleRow.rowid = List.range' 1 db.modules.length
  /-- A name is there once. -/
  names : (db.modules.map ModuleRow.moduleName).Nodup
  /-- The numbers have 63 bits. -/
  small : db.modules.length < 2 ^ 63
  /-- What was compiled has the number of its name. -/
  modId : ∀ comp ∈ db.compiled, IsId db.modules comp.name comp.modId
  /-- The table of instructions. -/
  instructions : ∃ calls, db.compiled.mapM callsOf = some calls ∧ insertAll [] calls.flatten = some db.instructions

variable {db db' : Database} {name : Str} {modId : UInt64} {comp : Compilation} {q : Query} {ans : Option (List Str)}
  {t : ℕ}

theorem allKept_empty : AllKept .empty where
  rowids := rfl
  names := List.nodup_nil
  small := by decide
  modId _ h := by cases h
  instructions := ⟨[], rfl, rfl⟩

/-- A number stays that of its name. -/
theorem IsId.mono {modules modules' : List ModuleRow} (h : IsId modules name modId) (hle : modules <+: modules') :
    IsId modules' name modId := by
  obtain ⟨r, hr, hname, hid⟩ := h
  exact ⟨r, hle.subset hr, hname, hid⟩

theorem foldr_max_range' (n : ℕ) : (List.range' 1 n).foldr max 0 = n := by
  induction n with
  | zero => rfl
  | succ n ih =>
    rw [List.range'_1_concat, List.foldr_append, List.foldr_cons, List.foldr_nil]
    have hmax : ∀ (l : List ℕ) m, l.foldr max m = max (l.foldr max 0) m := by
      intro l m
      induction l with
      | nil => simp
      | cons a l ih => rw [List.foldr_cons, List.foldr_cons, ih, max_assoc]
    rw [hmax, ih]
    omega

/-- The next number. -/
theorem AllKept.nextRowid (h : AllKept db) : nextRowid db.modules = db.modules.length + 1 := by
  rw [ModuleTable.nextRowid, h.rowids, foldr_max_range']

/-- The numbers that were given. -/
theorem AllKept.rowid (h : AllKept db) {i : ℕ} {r : ModuleRow} (hr : db.modules[i]? = some r) : r.rowid = i + 1 := by
  have hrow : (db.modules.map ModuleRow.rowid)[i]? = some r.rowid := by rw [List.getElem?_map, hr]; rfl
  rw [h.rowids, List.getElem?_range' (List.getElem?_eq_some_iff.mp hr).1] at hrow
  have heq := Option.some.inj hrow
  omega

/-- A row that is inserted. -/
theorem AllKept.insertModule (h : AllKept db) (hname : ∀ r ∈ db.modules, r.moduleName ≠ name)
    (hnext : ModuleTable.nextRowid db.modules < 2 ^ 63) :
    AllKept { db with modules := db.modules ++ [⟨ModuleTable.nextRowid db.modules, name⟩] } where
  rowids := by
    rw [List.map_append, h.rowids, List.length_append, List.length_singleton, List.range'_1_concat, h.nextRowid,
      Nat.add_comm 1]
    rfl
  names := by
    rw [List.map_append, List.nodup_append]
    refine ⟨h.names, List.nodup_singleton _, fun a ha b hb => ?_⟩
    obtain ⟨r, hr, rfl⟩ := List.mem_map.mp ha
    obtain rfl := List.mem_singleton.mp hb
    exact hname r hr
  small := by
    rw [List.length_append]
    rw [h.nextRowid] at hnext
    exact hnext
  modId comp hcomp := (h.modId comp hcomp).mono (List.prefix_append _ _)
  instructions := h.instructions

/-- A module that is compiled. -/
theorem AllKept.collect (h : AllKept db) (hid : IsId db.modules comp.name comp.modId) {calls : List Insert} {u : Table}
    (hcalls : callsOf comp = some calls) (hu : insertAll db.instructions calls = some u) :
    AllKept { db with instructions := u, compiled := db.compiled ++ [comp] } where
  rowids := h.rowids
  names := h.names
  small := h.small
  modId c hc := by
    obtain hc | hc := List.mem_append.mp hc
    · exact h.modId c hc
    · obtain rfl := List.mem_singleton.mp hc
      exact hid
  instructions := by
    obtain ⟨callss, hmap, hall⟩ := h.instructions
    refine ⟨callss ++ [calls], ?_, ?_⟩
    · rw [List.mapM_append, hmap, List.mapM_cons, hcalls]
      rfl
    · rw [List.flatten_append, List.flatten_singleton, insertAll, List.foldlM_append, ← insertAll, hall]
      exact hu

/-- **A statement** keeps it, and takes no row away. -/
theorem AllKept.exec (h : AllKept db) (hq : ∀ comp, q = .collect comp → IsId db.modules comp.name comp.modId)
    (hexec : ModuleTable.exec db q = (db', ans)) : AllKept db' ∧ db.modules <+: db'.modules := by
  cases q with
  | selectModule moduleName =>
    rw [ModuleTable.exec] at hexec
    split at hexec
    · cases hexec
      exact ⟨h, List.prefix_refl _⟩
    · cases hexec
      exact ⟨h, List.prefix_refl _⟩
  | insertModule moduleName =>
    rw [ModuleTable.exec] at hexec
    split at hexec
    · cases hexec
      exact ⟨h, List.prefix_refl _⟩
    · split_ifs at hexec with hany
      · cases hexec
        exact ⟨h, List.prefix_refl _⟩
      · cases hexec
        rw [not_or, not_le] at hany
        exact ⟨h.insertModule (fun r hr hname => hany.1 (List.any_eq_true.mpr ⟨r, hr, decide_eq_true hname⟩)) hany.2,
          List.prefix_append _ _⟩
  | collect comp =>
    rw [ModuleTable.exec] at hexec
    split at hexec
    · cases hexec
      exact ⟨h, List.prefix_refl _⟩
    · next u hu =>
      cases hexec
      obtain ⟨calls, hcalls, hu⟩ := Option.bind_eq_some_iff.mp hu
      exact ⟨h.collect (hq comp rfl) hcalls hu, List.prefix_refl _⟩

/-- What is selected is the number. -/
theorem isId_of_select {vals : List Str}
    (hexec : ModuleTable.exec db (.selectModule name) = (db', some vals))
    (hid : vals.foldl (fun _ value => stoull value) UNVALID_MODULE_ID = modId) (hne : modId ≠ UNVALID_MODULE_ID) :
    IsId db'.modules name modId := by
  rw [ModuleTable.exec] at hexec
  split at hexec
  · cases hexec
  · next moduleName hliteral =>
    cases hexec
    have hname : moduleName = name := by
      unfold literal at hliteral
      split_ifs at hliteral
      exact (Option.some.inj hliteral).symm
    subst hname
    have hlast : ∀ (rows : List ModuleRow) (u : UInt64),
        (rows.map fun r => decimal r.rowid).foldl (fun _ value => stoull value) u = u ∨
          ∃ r ∈ rows, (rows.map fun r => decimal r.rowid).foldl (fun _ value => stoull value) u = UInt64.ofNat r.rowid := by
      intro rows u
      induction rows using List.reverseRecOn with
      | nil => exact Or.inl rfl
      | append_singleton rows r ih =>
        refine Or.inr ⟨r, List.mem_append_right _ List.mem_cons_self, ?_⟩
        rw [List.map_append, List.foldl_append, List.map_singleton, List.foldl_cons, List.foldl_nil, stoull,
          number_decimal]
    obtain heq | ⟨r, hr, heq⟩ := hlast (db.modules.filter fun r => r.moduleName = moduleName) UNVALID_MODULE_ID
    · exact absurd (hid.symm.trans heq) hne
    · obtain ⟨hmem, hname⟩ := List.mem_filter.mp hr
      exact ⟨r, hmem, of_decide_eq_true hname, hid.symm.trans heq⟩

/-! ### The compilers -/

/-- What a compiler counts on: no row is taken away. -/
def Grows (_ : ℕ) (db db' : Database) : Prop := db.modules <+: db'.modules

/-- A compiler in the middle of a build. -/
abbrev Keeps {α : Type} (mid : ℕ → Option α → Database → Prop) (t : ℕ) (x : Compiler α) (db : Database) : Prop :=
  Sound (fun _ db q => some (ModuleTable.exec db q)) AllKept Grows (fun _ _ => False) mid t x db

theorem stable : Stable AllKept Grows (fun _ _ => False) fun _ (_ : Option Unit) _ => True where
  refl _ _ := List.prefix_refl _
  trans _ _ _ _ h₁ h₂ := h₁.trans h₂
  holds _ _ _ _ := Iff.rfl
  post _ _ _ _ _ _ _ := trivial

/-- A statement, for which something is known that the others do not change. -/
theorem keeps_run {mid : ℕ → Option (List Str) → Database → Prop} (hnone : ∀ db, mid t none db)
    (h : ∀ db', db.modules <+: db'.modules → AllKept db' → (∀ comp, q = .collect comp →
      IsId db'.modules comp.name comp.modId) ∧
        ∀ db'' vals, ModuleTable.exec db' q = (db'', some vals) → mid t (some vals) db'') : Keeps mid t (run q) db := by
  intro db₁ hgrows hkept
  refine ⟨fun hexec => absurd hexec (Option.some_ne_none _), fun db₂ ans hexec => ?_⟩
  have hexec' := Option.some.inj hexec
  obtain ⟨hq, hvals⟩ := h db₁ hgrows hkept
  obtain ⟨hkept₂, hgrows₂⟩ := hkept.exec hq hexec'
  refine ⟨hkept₂, fun _ _ => hgrows₂, ?_⟩
  cases ans with
  | none => exact hnone db₂
  | some vals => exact hvals db₂ vals hexec'

theorem keeps_format (text : Str) : Keeps (fun _ _ _ => True) t (format text) db := by
  unfold format
  split
  · trivial
  · trivial

/-- What is found is the number, if anything is. -/
theorem keeps_findModuleId (h : AllKept db) : Keeps
    (fun _ a db => ∀ modId, a = some modId → modId ≠ UNVALID_MODULE_ID → IsId db.modules name modId) t
      (findModuleId name) db := by
  have hselect : ∀ db₁, AllKept db₁ → Keeps (fun _ vals db => ∀ modId,
      vals.map (List.foldl (fun _ value => stoull value) UNVALID_MODULE_ID) = some modId →
        modId ≠ UNVALID_MODULE_ID → IsId db.modules name modId) t (run (.selectModule name)) db₁ := by
    intro db₁ _
    refine keeps_run ?_ fun db₂ _ _ => ?_
    · rintro db₂ _ ⟨⟩
    · refine ⟨by rintro _ ⟨⟩, fun db₃ vals hexec modId hmodId => ?_⟩
      exact isId_of_select hexec (Option.some.inj hmodId)
  refine Sound.bind (keeps_format _) h (fun _ db₁ h₁ _ => Sound.bind (hselect db₁ h₁) h₁ ?_ ?_) ?_
  · exact fun vals db₂ _ hvals => hvals
  · rintro db₂ - _ ⟨⟩
  · rintro db₁ - _ ⟨⟩

theorem keeps_moduleExists (h : AllKept db) : Keeps (fun _ _ _ => True) t (moduleExists name) db :=
  Sound.bind (keeps_findModuleId h) h (fun _ _ _ _ => trivial) fun _ _ => trivial

theorem keeps_insertModule (h : AllKept db) : Keeps (fun _ _ _ => True) t (insertModule name) db := by
  refine Sound.bind (keeps_moduleExists h) h (fun found db₁ h₁ _ => ?_) fun _ _ => trivial
  cases found with
  | true => trivial
  | false =>
    have hinsert : ∀ db₂, Keeps (fun _ _ _ => True) t (run (.insertModule name)) db₂ := fun db₂ =>
      keeps_run (fun _ => trivial) fun db₃ _ _ => ⟨by rintro _ ⟨⟩, fun _ _ _ => trivial⟩
    exact Sound.bind (keeps_format _) h₁ (fun _ db₂ h₂ _ => Sound.bind (hinsert db₂) h₂ (fun _ _ _ _ => trivial)
      fun _ _ => trivial) fun _ _ => trivial

/-- **`loadModuleId`** gives the number of the module. -/
theorem keeps_loadModuleId (h : AllKept db) :
    Keeps (fun _ a db => ∀ modId, a = some modId → IsId db.modules name modId) t (loadModuleId name) db := by
  have hfind : ∀ db₁, AllKept db₁ → Keeps (fun _ a db => ∀ modId, a = some modId → IsId db.modules name modId) t
      (do
        let modId ← findModuleId name
        if modId ≠ UNVALID_MODULE_ID then return modId
        else .stop) db₁ := by
    intro db₁ h₁
    refine Sound.bind (keeps_findModuleId h₁) h₁ (fun modId db₂ h₂ hmodId => ?_) ?_
    · split_ifs with hne
      · rintro _ ⟨⟩
        exact hmodId modId rfl hne
      · rintro _ ⟨⟩
    · rintro _ - _ ⟨⟩
  refine Sound.bind (keeps_moduleExists h) h (fun found db₁ h₁ _ => ?_) ?_
  · cases found with
    | true => exact hfind db₁ h₁
    | false =>
      refine Sound.bind (keeps_insertModule h₁) h₁ (fun _ db₂ h₂ _ => hfind db₂ h₂) ?_
      rintro _ - _ ⟨⟩
  · rintro _ - _ ⟨⟩

theorem keeps_compile (h : AllKept db) (input : Str × List (InstKind × Str)) :
    Keeps (fun _ _ _ => True) t (compile input) db := by
  refine Sound.bind (keeps_loadModuleId h) h (fun modId db₁ h₁ hmodId => ?_) fun _ _ => trivial
  have hcollect : Keeps (fun _ _ _ => True) t (run (.collect ⟨input.1, modId, input.2⟩)) db₁ := by
    refine keeps_run (fun _ => trivial) fun db₂ hgrows _ => ⟨?_, fun _ _ _ => trivial⟩
    rintro comp ⟨⟩
    exact (hmodId modId rfl).mono hgrows
  exact Sound.bind hcollect h₁ (fun _ _ _ _ => trivial) fun _ _ => trivial

/-- **What every build keeps.** -/
theorem allKept_of_build {acts : List BuildAct} {c : Config Database Query (Option (List Str)) Unit}
    (h : build acts = some c) : AllKept c.shared := by
  refine (sound_of_exec stable ⟨allKept_empty, fun t x hx => ?_, fun _ h => h.elim⟩
    (fun input t db hdb _ => keeps_compile hdb input) h).shared
  cases hx

end ModuleTable

end Schnauzer
