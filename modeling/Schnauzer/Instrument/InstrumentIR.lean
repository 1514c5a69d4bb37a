import Mathlib.Data.List.Infix
import Schnauzer.Common.Event
import Schnauzer.Common.Yaml
import Schnauzer.Instrument.CollectSrcInfo
import Schnauzer.Scripts.Race

/-!
# Instrumenting a module

`llvm/instrument/InstrumentImpl`: the loop over the instructions of a block inserts calls before and after the
instruction that it is at, and comes to those after it next. An instruction is known by its address; a new one
has an address that no other has.

`for (auto &I : B)` is given by what it does at each instruction (`Visit`): what is inserted before the cursor
is passed over, what is inserted after it is in front of the rest. It is run for a number of instructions, and
`Abort.fuel` says that it was not at the end by then. The functions that are declared on the way have no blocks.

## What is proved

* `specialFunction_inserted` — when a call of an inserted function is recognised.
* `visit_known`, `visit_inserted` — what the loop does at an instruction of the module, and at one that it
  inserted.
* `settles_iff` — for which names and modules the loop leaves its own calls alone.
-/

namespace Schnauzer

namespace Instrument

open Scripts

/-! ### Names -/

/-- `\w`. -/
def isWord (c : Char) : Bool := c.isAlphanum || c = '_'

/-- `[\w\*]+ (\w+)\(.*\)`. -/
def funcRgx : List (Regex.Item Char) :=
  [⟨fun c => isWord c || c = '*', .plus, false⟩, ⟨(· = ' '), .one, false⟩, ⟨isWord, .plus, true⟩,
    ⟨(· = '('), .one, false⟩, ⟨Yaml.isDot, .star, false⟩, ⟨(· = ')'), .one, false⟩]

/-- `parse_func_name`; `none` is a failed `assert`. -/
def parseFuncName (funcType : Str) : Option Str := do
  let matches' ← Regex.search funcRgx funcType
  matches'.groups[0]?

/-- The names that are in `WrapFuncNames_` whatever the file. -/
def fixedNames : List Str :=
  ["pthread_create".toList, "pthread_join".toList, "pthread_exit".toList, "free".toList, "malloc".toList,
    "realloc".toList, "calloc".toList, "pthread_mutex_destroy".toList]

/-- `Instrument::loadWrapFuncDefs`, of the lines of the file: the names in `WrapFuncNames_`. -/
def loadWrapFuncDefs (lines : List Str) : Option (List Str) := do
  let names ← lines.mapM parseFuncName
  if names = [] then none else return names ++ fixedNames

/-- `specials`. -/
def specials : List Str :=
  ["_before_main".toList, "_before_exit".toList, "_before_func_call".toList, "_after_func_call".toList,
    "_before_load".toList, "_after_load".toList, "_before_store".toList, "_after_store".toList, "_enter_func".toList,
    "_exit_func".toList, "_after_fork".toList]

/-- A name to wrap is part of the name of the function. -/
def ContainsWrapped (wrapFuncNames : List Str) (funcName : Str) : Prop :=
  ∃ n ∈ wrapFuncNames, n <:+: funcName ∧ ¬ "pthread_".toList <+: n

instance (wrapFuncNames : List Str) (funcName : Str) : Decidable (ContainsWrapped wrapFuncNames funcName) :=
  inferInstanceAs (Decidable (∃ n ∈ wrapFuncNames, _))

/-- `Instrument::specialFunction`, of the name of the function if there is one. -/
def specialFunction (wrapFuncNames : List Str) : Option Str → Bool
  | none => false
  | some funcName =>
    if ContainsWrapped wrapFuncNames funcName then false
    else "llvm".toList <+: funcName || funcName ∈ specials || '.' ∈ funcName || "wrapper".toList <:+ funcName

/-! ### The module -/

/-- An argument. -/
inductive Operand where
  /-- The instruction at an address. -/
  | inst (ptr : ℕ)
  /-- A number. -/
  | int (n : UInt64)
  /-- Another value. -/
  | value (k : ℕ)
  deriving DecidableEq

/-- What an instruction does. -/
inductive Op where
  | load (pointer : Operand) (isVolatile : Bool)
  | store (pointer : Operand) (isVolatile : Bool)
  /-- A call of the function `getCalledFunction()`, which may be null. -/
  | call (func : Option Str) (args : List Operand)
  | bitCast (pointer : Operand)
  | other
  deriving DecidableEq

/-- An instruction. -/
structure Inst where
  /-- Its address. -/
  ptr : ℕ
  op : Op
  deriving DecidableEq

/-- A function; one that is only declared has no blocks. -/
structure Function where
  name : Str
  blocks : List (List Inst)

/-- The instructions of the functions, in their order. -/
def insts (functions : List Function) : List Inst := functions.flatMap fun F => F.blocks.flatten

/-- A module. -/
structure Module where
  functions : List Function
  /-- The names of its functions and variables that are not of the type of a function that is inserted. -/
  otherNames : List Str
  /-- No two instructions have one address. -/
  nodup : ((insts functions).map Inst.ptr).Nodup

/-- The instructions that `collectSrcInfo` inserts into the database. -/
def Op.isCollected : Op → Bool
  | .load _ _ | .store _ _ | .call _ _ => true
  | .bitCast _ | .other => false

/-- `Instrument::collectSrcInfo`: `InstIdMap_`; `none` where `computeUniqueId` fails. -/
def collectSrcInfo (modId : UInt64) (M : Module) : Option (List (ℕ × UInt64)) :=
  (insts M.functions).zipIdx.mapM fun (I, instId) =>
    if I.op.isCollected then (computeUniqueId modId (UInt64.ofNat instId)).map fun _ => (I.ptr, UInt64.ofNat instId)
    else some (I.ptr, UInt64.ofNat instId)

/-! ### The pass -/

/-- The ways in which the pass ends early. -/
inductive Abort where
  /-- `getInstId`: the instruction is not in `InstIdMap_`. -/
  | getInstId
  /-- `computeUniqueId`. -/
  | computeUniqueId
  /-- `main` has no first instruction. -/
  | noInstruction
  /-- The loop was not at its end. -/
  | fuel
  deriving DecidableEq

/-- What the pass reads. -/
structure Env where
  /-- `WrapFuncNames_`. -/
  wrapFuncNames : List Str
  /-- `ModId_`. -/
  modId : UInt64
  /-- `InstIdMap_`. -/
  instIdMap : List (ℕ × UInt64)
  /-- The names of the module at another type. -/
  otherNames : List Str

/-- What the pass writes. -/
structure St where
  /-- The address of the next instruction that is made. -/
  next : ℕ
  /-- `nr_instr_ld_`. -/
  nrInstrLd : ℕ
  /-- `nr_instr_st_`. -/
  nrInstrSt : ℕ
  /-- `nr_instr_fork_`. -/
  nrInstrFork : ℕ

/-- The loop at an instruction. -/
structure Visit where
  /-- What is inserted before it. -/
  before : List Inst
  /-- The instruction. -/
  inst : Inst
  /-- What is inserted after it. -/
  after : List Inst

variable (env : Env)

/-- `Instrument::getInstId`. -/
def getInstId (I : Inst) : Except Abort UInt64 :=
  match env.instIdMap.find? (·.1 = I.ptr) with
  | none => .error .getInstId
  | some e =>
    match computeUniqueId env.modId e.2 with
    | none => .error .computeUniqueId
    | some id => .ok id

/-- A new instruction. -/
def create (op : Op) (st : St) : Inst × St := (⟨st.next, op⟩, { st with next := st.next + 1 })

/-- `createCall`, of the function that `getOrInsertFunction` gives: at another type it is a cast, and the call
has no called function. -/
def createCall (name : Str) (args : List Operand) (st : St) : Inst × St :=
  create (.call (if name ∈ env.otherNames then none else some name) args) st

/-- `Instrument::instrLoad` and `Instrument::instrStore`. -/
def instrAccess (beforeFunc afterFunc : Str) (pointer : Operand) (I I' : Inst) (st : St) :
    Except Abort (Visit × St) := do
  let (cast, st) := create (.bitCast pointer) st
  let id ← getInstId env I
  let (before, st) := createCall env beforeFunc [.int id, .inst cast.ptr] st
  let (after, st) := createCall env afterFunc [.int id, .inst cast.ptr] st
  return (⟨[cast, before], I', [after]⟩, st)

/-- `Instrument::instrLoad`. -/
def instrLoad (I : Inst) (pointer : Operand) (st : St) : Except Abort (Visit × St) :=
  instrAccess env "_before_load".toList "_after_load".toList pointer I ⟨I.ptr, .load pointer true⟩
    { st with nrInstrLd := st.nrInstrLd + 1 }

/-- `Instrument::instrStore`. -/
def instrStore (I : Inst) (pointer : Operand) (st : St) : Except Abort (Visit × St) :=
  instrAccess env "_before_store".toList "_after_store".toList pointer I ⟨I.ptr, .store pointer true⟩
    { st with nrInstrSt := st.nrInstrSt + 1 }

/-- `Instrument::instrCall`. -/
def instrCall (I : Inst) (func : Option Str) (st : St) : Except Abort (Visit × St) :=
  match func with
  | none => return (⟨[], I, []⟩, st)
  | some funcName =>
    if specialFunction env.wrapFuncNames (some funcName) then return (⟨[], I, []⟩, st)
    else if funcName ∈ env.wrapFuncNames ∧ "pthread_".toList <+: funcName then return (⟨[], I, []⟩, st)
    else if funcName = "fork".toList then do
      let st := { st with nrInstrFork := st.nrInstrFork + 1 }
      let id ← getInstId env I
      let (after, st) := createCall env "_after_fork".toList [.int id, .inst I.ptr] st
      return (⟨[], I, [after]⟩, st)
    else do
      let id ← getInstId env I
      let (before, st) := createCall env "_before_func_call".toList [.int id] st
      let (after, st) := createCall env "_after_func_call".toList [.int id] st
      return (⟨[before], I, [after]⟩, st)

/-- The body of the loop. -/
def visit (I : Inst) (st : St) : Except Abort (Visit × St) :=
  match I.op with
  | .load pointer _ => instrLoad env I pointer st
  | .store pointer _ => instrStore env I pointer st
  | .call func _ => instrCall env I func st
  | .bitCast _ | .other => return (⟨[], I, []⟩, st)

/-- `for (auto &I : B)`. -/
def instrBlock : ℕ → List Inst → St → Except Abort (List Visit × St)
  | 0, _, _ => .error .fuel
  | _ + 1, [], st => .ok ([], st)
  | n + 1, I :: rest, st => do
    let (v, st) ← visit env I st
    let (vs, st) ← instrBlock n (v.after ++ rest) st
    return (v :: vs, st)

/-- `Instrument::instrFunctionEntrance`: the blocks of the function then. -/
def instrFunctionEntrance (F : Function) (st : St) : Except Abort (List (List Inst) × St) :=
  if F.name = "main".toList then
    match F.blocks with
    | (I :: B) :: blocks =>
      let (call, st) := createCall env "_before_main".toList [] st
      .ok ((call :: I :: B) :: blocks, st)
    | _ => .error .noInstruction
  else .ok (F.blocks, st)

/-- `for (auto &B : F)`. -/
def instrBlocks (n : ℕ) : List (List Inst) → St → Except Abort (List (List Visit) × St)
  | [], st => .ok ([], st)
  | B :: blocks, st => do
    let (vs, st) ← instrBlock env n B st
    let (vss, st) ← instrBlocks n blocks st
    return (vs :: vss, st)

/-- `Instrument::instrumentIR`, for at most `n` instructions in a block. -/
def instrumentIR (n : ℕ) : List Function → St → Except Abort (List (List (List Visit)) × St)
  | [], st => .ok ([], st)
  | F :: functions, st => do
    let (blocks, st) ← instrFunctionEntrance env F st
    let (vss, st) ← instrBlocks env n blocks st
    let (vsss, st) ← instrumentIR n functions st
    return (vss :: vsss, st)

/-! ### The property -/

/-- The loop leaves an instruction that it inserted alone: `specialFunction` recognises what it calls. -/
def LeftAlone (v : Visit) : Prop :=
  (∀ e ∈ env.instIdMap, e.1 ≠ v.inst.ptr) → v.before = [] ∧ v.after = [] ∧
    ∀ f args, v.inst.op = .call (some f) args → specialFunction env.wrapFuncNames (some f)

/-- An address that no instruction has. -/
def freshPtr (M : Module) : ℕ := ((insts M.functions).map Inst.ptr).foldr max 0 + 1

/-- The loop over each block ends, `getInstId` finds its instruction each time, and the calls that were inserted
are left alone. -/
def Settles (lines : List Str) (modId : UInt64) (M : Module) : Prop :=
  ∃ wrapFuncNames instIdMap, loadWrapFuncDefs lines = some wrapFuncNames ∧ collectSrcInfo modId M = some instIdMap ∧
    ∃ n out st, instrumentIR ⟨wrapFuncNames, modId, instIdMap, M.otherNames⟩ n M.functions ⟨freshPtr M, 0, 0, 0⟩ =
        .ok (out, st) ∧
      ∀ vss ∈ out, ∀ vs ∈ vss, ∀ v ∈ vs, LeftAlone ⟨wrapFuncNames, modId, instIdMap, M.otherNames⟩ v

/-! ### The condition -/

/-- The function that is called after an instruction. -/
def afterName (wrapFuncNames : List Str) : Op → Option Str
  | .load _ _ => some "_after_load".toList
  | .store _ _ => some "_after_store".toList
  | .call (some funcName) _ =>
    if specialFunction wrapFuncNames (some funcName) then none
    else if funcName ∈ wrapFuncNames ∧ "pthread_".toList <+: funcName then none
    else if funcName = "fork".toList then some "_after_fork".toList
    else some "_after_func_call".toList
  | _ => none

/-- No name to wrap is part of the name of an inserted function, which is not one of the module's at another type. -/
def Quiet (name : Str) : Prop := name ∈ env.otherNames ∨ ¬ ContainsWrapped env.wrapFuncNames name

instance (name : Str) : Decidable (Quiet env name) := inferInstanceAs (Decidable (_ ∨ _))

/-- The names of all functions that the loop comes to call are quiet, and `main` has a body. -/
def AllQuiet (functions : List Function) : Prop :=
  (∀ F ∈ functions, F.name = "main".toList → (∃ I B blocks, F.blocks = (I :: B) :: blocks) ∧
      Quiet env "_before_main".toList) ∧
    ∀ I ∈ insts functions, ∀ a ∈ afterName env.wrapFuncNames I.op, Quiet env a

variable {env} {I : Inst} {B rest : List Inst} {st st' : St} {a : Str} {args : List Operand} {n k p : ℕ}

/-! ### One instruction -/

/-- The functions that are called where the loop comes by. -/
def IsInserted (a : Str) : Prop :=
  a ∈ ["_before_main".toList, "_after_load".toList, "_after_store".toList, "_after_fork".toList,
    "_after_func_call".toList]

instance (a : Str) : Decidable (IsInserted a) := inferInstanceAs (Decidable (a ∈ _))

/-- The call of an inserted function. -/
def insertedCall (env : Env) (p : ℕ) (a : Str) (args : List Operand) : Inst :=
  ⟨p, .call (if a ∈ env.otherNames then none else some a) args⟩

/-- **When a call of an inserted function is recognised.** -/
theorem specialFunction_inserted (ha : IsInserted a) (W : List Str) :
    specialFunction W (some a) = !decide (ContainsWrapped W a) := by
  have hspecial : a ∈ specials := by
    revert a
    unfold IsInserted
    decide
  rw [specialFunction]
  split_ifs with h
  · simp [h]
  · simp [h, hspecial]

theorem getInstId_of_fresh (hp : ∀ e ∈ env.instIdMap, e.1 ≠ I.ptr) : getInstId env I = .error .getInstId := by
  have hfind : env.instIdMap.find? (·.1 = I.ptr) = none := List.find?_eq_none.mpr fun e he => by simpa using hp e he
  rw [getInstId, hfind]

/-- **The loop at a call that it inserted**: nothing, or the `assert` of `getInstId`. -/
theorem visit_inserted (ha : IsInserted a) (hp : ∀ e ∈ env.instIdMap, e.1 ≠ p) :
    visit env (insertedCall env p a args) st =
      if Quiet env a then .ok (⟨[], insertedCall env p a args, []⟩, st) else .error .getInstId := by
  have hname : ¬ "pthread_".toList <+: a ∧ a ≠ "fork".toList := by
    revert a
    unfold IsInserted
    decide
  have hid : getInstId env (insertedCall env p a args) = .error .getInstId := getInstId_of_fresh hp
  by_cases hother : a ∈ env.otherNames
  · have hcall : insertedCall env p a args = ⟨p, .call none args⟩ := by rw [insertedCall, if_pos hother]
    have hquiet : Quiet env a := Or.inl hother
    rw [if_pos hquiet, hcall]
    rfl
  · have hcall : insertedCall env p a args = ⟨p, .call (some a) args⟩ := by rw [insertedCall, if_neg hother]
    have hvisit : visit env ⟨p, .call (some a) args⟩ st = instrCall env ⟨p, .call (some a) args⟩ (some a) st := rfl
    rw [hcall] at hid ⊢
    rw [hvisit, instrCall.eq_def]
    dsimp only
    rw [specialFunction_inserted ha]
    by_cases hwrap : ContainsWrapped env.wrapFuncNames a
    · have hquiet : ¬ Quiet env a := fun h => h.elim hother fun h => h hwrap
      rw [if_neg (by simp [hwrap]), if_neg fun h => hname.1 h.2, if_neg hname.2, hid, if_neg hquiet]
      rfl
    · have hquiet : Quiet env a := Or.inr hwrap
      rw [if_pos (by simp [hwrap]), if_pos hquiet]
      rfl

/-- An instruction of the module. -/
structure Known (env : Env) (I : Inst) : Prop where
  mem : ∃ e ∈ env.instIdMap, e.1 = I.ptr
  id : I.op.isCollected → ∃ id, getInstId env I = .ok id

/-- What the loop inserts after an instruction of the module. -/
structure Inserts (env : Env) (I : Inst) (st : St) (v : Visit) (st' : St) : Prop where
  ptr : v.inst.ptr = I.ptr
  next : st.next ≤ st'.next
  none : afterName env.wrapFuncNames I.op = none → v.after = []
  some : ∀ a, afterName env.wrapFuncNames I.op = some a →
    IsInserted a ∧ ∃ p args, st.next ≤ p ∧ v.after = [insertedCall env p a args]

theorem instrAccess_ok {id : UInt64} (hid : getInstId env I = .ok id) (beforeFunc afterFunc : Str) (pointer : Operand)
    (I' : Inst) (st : St) : ∃ v st', instrAccess env beforeFunc afterFunc pointer I I' st = .ok (v, st') ∧
      v.inst = I' ∧ st.next ≤ st'.next ∧
        ∃ p args, st.next ≤ p ∧ v.after = [insertedCall env p afterFunc args] := by
  rw [instrAccess, hid]
  refine ⟨_, _, rfl, rfl, ?_, _, _, ?_, rfl⟩
  · exact Nat.le_add_right _ 3
  · exact Nat.le_add_right _ 2

theorem instrCall_ok (funcName : Str) (hid : ∃ id, getInstId env I = .ok id) (st : St) :
    ∃ v st', instrCall env I (some funcName) st = .ok (v, st') ∧ v.inst = I ∧ st.next ≤ st'.next ∧
      (afterName env.wrapFuncNames (.call (some funcName) []) = none → v.after = []) ∧
        ∀ a, afterName env.wrapFuncNames (.call (some funcName) []) = some a →
          IsInserted a ∧ ∃ p args, st.next ≤ p ∧ v.after = [insertedCall env p a args] := by
  obtain ⟨id, hid⟩ := hid
  rw [instrCall.eq_def, afterName]
  dsimp only
  split_ifs with hspecial hpthread hfork
  · exact ⟨_, _, rfl, rfl, le_rfl, fun _ => rfl, fun a ha => by cases ha⟩
  · exact ⟨_, _, rfl, rfl, le_rfl, fun _ => rfl, fun a ha => by cases ha⟩
  · rw [hid]
    refine ⟨_, _, rfl, rfl, ?_, (by rintro ⟨⟩), ?_⟩
    · simp only [createCall, create]
      omega
    · rintro _ ⟨⟩
      exact ⟨by decide, _, _, le_rfl, rfl⟩
  · rw [hid]
    refine ⟨_, _, rfl, rfl, ?_, (by rintro ⟨⟩), ?_⟩
    · simp only [createCall, create]
      omega
    · rintro _ ⟨⟩
      refine ⟨by decide, _, _, ?_, rfl⟩
      simp only [createCall, create]
      omega

/-- **The loop at an instruction of the module.** -/
theorem visit_known (hI : Known env I) (st : St) : ∃ v st', visit env I st = .ok (v, st') ∧ Inserts env I st v st' := by
  obtain ⟨ptr, op⟩ := I
  cases op with
  | load pointer isVolatile =>
    obtain ⟨id, hid⟩ := hI.id rfl
    obtain ⟨v, st', hv, hinst, hnext, hafter⟩ := instrAccess_ok hid "_before_load".toList "_after_load".toList pointer
      ⟨ptr, .load pointer true⟩ { st with nrInstrLd := st.nrInstrLd + 1 }
    exact ⟨v, st', hv, by rw [hinst], hnext, (by rintro ⟨⟩), (by
      rintro _ ⟨⟩
      exact ⟨by decide, hafter⟩)⟩
  | store pointer isVolatile =>
    obtain ⟨id, hid⟩ := hI.id rfl
    obtain ⟨v, st', hv, hinst, hnext, hafter⟩ := instrAccess_ok hid "_before_store".toList "_after_store".toList pointer
      ⟨ptr, .store pointer true⟩ { st with nrInstrSt := st.nrInstrSt + 1 }
    exact ⟨v, st', hv, by rw [hinst], hnext, (by rintro ⟨⟩), (by
      rintro _ ⟨⟩
      exact ⟨by decide, hafter⟩)⟩
  | call func args =>
    match func with
    | none => exact ⟨_, _, rfl, rfl, le_rfl, fun _ => rfl, (by rintro _ ⟨⟩)⟩
    | some funcName =>
      obtain ⟨v, st', hv, hinst, hnext, hnone, hsome⟩ := instrCall_ok funcName (hI.id rfl) st
      exact ⟨v, st', hv, congrArg Inst.ptr hinst, hnext, hnone, hsome⟩
  | bitCast pointer => exact ⟨_, _, rfl, rfl, le_rfl, fun _ => rfl, (by rintro _ ⟨⟩)⟩
  | other => exact ⟨_, _, rfl, rfl, le_rfl, fun _ => rfl, (by rintro _ ⟨⟩)⟩

/-! ### One block -/

theorem instrBlock_inserted (ha : IsInserted a) (hp : ∀ e ∈ env.instIdMap, e.1 ≠ p) :
    instrBlock env (k + 1) (insertedCall env p a args :: rest) st =
      if Quiet env a then (instrBlock env k rest st).map fun r => (⟨[], insertedCall env p a args, []⟩ :: r.1, r.2)
      else .error .getInstId := by
  rw [instrBlock, visit_inserted ha hp]
  split_ifs
  · cases h : instrBlock env k rest st with
    | ok r => simp [h, bind, Except.bind, Except.map, pure, Except.pure]
    | error e => simp [h, bind, Except.bind, Except.map]
  · rfl

theorem instrBlock_known (hI : Known env I) (st : St) : ∃ v st', Inserts env I st v st' ∧
    ∀ k rest, instrBlock env (k + 1) (I :: rest) st =
      (instrBlock env k (v.after ++ rest) st').map fun r => (v :: r.1, r.2) := by
  obtain ⟨v, st', hv, hins⟩ := visit_known hI st
  refine ⟨v, st', hins, fun k rest => ?_⟩
  rw [instrBlock, hv]
  cases h : instrBlock env k (v.after ++ rest) st' with
  | ok r => simp [h, bind, Except.bind, Except.map, pure, Except.pure]
  | error e => simp [h, bind, Except.bind, Except.map]

/-- The visit of a call that is recognised. -/
theorem leftAlone_inserted (ha : IsInserted a) (hquiet : Quiet env a) :
    LeftAlone env ⟨[], insertedCall env p a args, []⟩ := by
  refine fun _ => ⟨rfl, rfl, fun f args' hop => ?_⟩
  rw [insertedCall] at hop
  split_ifs at hop with hother
  · cases hop
  · obtain rfl := Option.some.inj (Op.call.inj hop).1
    rw [specialFunction_inserted ha]
    simpa using hquiet.resolve_left hother

theorem leftAlone_known {v : Visit} (hI : Known env I) (hv : v.inst.ptr = I.ptr) : LeftAlone env v := fun h => by
  obtain ⟨e, he, hptr⟩ := hI.mem
  exact absurd (hptr.trans hv.symm) (h e he)

/-- The map has no address that is yet to be given to an instruction. -/
def Fresh (env : Env) (st : St) : Prop := ∀ e ∈ env.instIdMap, e.1 < st.next

theorem Fresh.mono (h : Fresh env st) (hle : st.next ≤ st'.next) : Fresh env st' := fun e he => (h e he).trans_le hle

theorem Fresh.ne (h : Fresh env st) (hp : st.next ≤ p) : ∀ e ∈ env.instIdMap, e.1 ≠ p := fun e he =>
  ((h e he).trans_le hp).ne

/-- **A block whose inserted calls are recognised** comes to its end. -/
theorem instrBlock_ok (hB : ∀ I ∈ B, Known env I)
    (hquiet : ∀ I ∈ B, ∀ a ∈ afterName env.wrapFuncNames I.op, Quiet env a) (hfresh : Fresh env st)
    (hn : 2 * B.length < n) :
    ∃ vs st', instrBlock env n B st = .ok (vs, st') ∧ st.next ≤ st'.next ∧ ∀ v ∈ vs, LeftAlone env v := by
  induction B generalizing n st with
  | nil =>
    obtain ⟨n, rfl⟩ := Nat.exists_eq_succ_of_ne_zero (Nat.ne_of_gt hn)
    exact ⟨[], st, rfl, le_rfl, by simp⟩
  | cons I B ih =>
    have ⟨hI, hB⟩ := List.forall_mem_cons.mp hB
    have ⟨hquietI, hquiet⟩ := List.forall_mem_cons.mp hquiet
    obtain ⟨n, rfl⟩ := Nat.exists_eq_succ_of_ne_zero (Nat.ne_zero_of_lt hn)
    rw [List.length_cons] at hn
    obtain ⟨v, st₁, hins, hblock⟩ := instrBlock_known hI st
    have hv := leftAlone_known hI hins.ptr
    have hfresh₁ := hfresh.mono hins.next
    match hafter : afterName env.wrapFuncNames I.op with
    | none =>
      obtain ⟨vs, st', hvs, hnext, halone⟩ := ih hB hquiet hfresh₁ (n := n) (by omega)
      refine ⟨v :: vs, st', ?_, hins.next.trans hnext, List.forall_mem_cons.mpr ⟨hv, halone⟩⟩
      rw [hblock, hins.none hafter, List.nil_append, hvs]
      rfl
    | some a =>
      obtain ⟨ha, p, args, hp, hcall⟩ := hins.some a hafter
      obtain ⟨n, rfl⟩ := Nat.exists_eq_succ_of_ne_zero (by omega : n ≠ 0)
      have hquietA := hquietI a hafter
      obtain ⟨vs, st', hvs, hnext, halone⟩ := ih hB hquiet hfresh₁ (n := n) (by omega)
      refine ⟨v :: ⟨[], insertedCall env p a args, []⟩ :: vs, st', ?_, hins.next.trans hnext,
        List.forall_mem_cons.mpr ⟨hv, List.forall_mem_cons.mpr ⟨leftAlone_inserted ha hquietA, halone⟩⟩⟩
      rw [hblock, hcall, List.singleton_append, instrBlock_inserted ha (hfresh.ne hp), if_pos hquietA, hvs]
      rfl

/-- **A block that comes to its end** inserts only calls that are recognised. -/
theorem quiet_of_instrBlock {vs : List Visit} (hB : ∀ I ∈ B, Known env I) (hfresh : Fresh env st)
    (h : instrBlock env n B st = .ok (vs, st')) :
    (∀ I ∈ B, ∀ a ∈ afterName env.wrapFuncNames I.op, Quiet env a) ∧ st.next ≤ st'.next := by
  induction B generalizing n st vs with
  | nil =>
    match n, h with
    | _ + 1, h =>
      obtain ⟨rfl, rfl⟩ := h
      exact ⟨by simp, le_rfl⟩
  | cons I B ih =>
    have ⟨hI, hB⟩ := List.forall_mem_cons.mp hB
    match n, h with
    | n + 1, h =>
      obtain ⟨v, st₁, hins, hblock⟩ := instrBlock_known hI st
      rw [hblock] at h
      obtain ⟨⟨vs, st₂⟩, hrest, heq⟩ := map_eq_ok.mp h
      obtain ⟨-, rfl⟩ := Prod.mk.inj heq
      match hafter : afterName env.wrapFuncNames I.op with
      | none =>
        rw [hins.none hafter, List.nil_append] at hrest
        have ⟨hquiet, hnext⟩ := ih hB (hfresh.mono hins.next) hrest
        exact ⟨List.forall_mem_cons.mpr ⟨by simp [hafter], hquiet⟩, hins.next.trans hnext⟩
      | some a =>
        obtain ⟨ha, p, args, hp, hcall⟩ := hins.some a hafter
        rw [hcall, List.singleton_append] at hrest
        match n, hrest with
        | n + 1, hrest =>
          rw [instrBlock_inserted ha (hfresh.ne hp)] at hrest
          split_ifs at hrest with hquietA
          obtain ⟨⟨vs', st₃⟩, hB', heq'⟩ := map_eq_ok.mp hrest
          obtain ⟨-, rfl⟩ := Prod.mk.inj heq'
          have ⟨hquiet, hnext⟩ := ih hB (hfresh.mono hins.next) hB'
          exact ⟨List.forall_mem_cons.mpr ⟨by simpa [hafter] using hquietA, hquiet⟩, hins.next.trans hnext⟩

/-! ### The blocks of a function -/

theorem instrBlocks_ok {blocks : List (List Inst)} (hblocks : ∀ B ∈ blocks, ∀ I ∈ B, Known env I)
    (hquiet : ∀ B ∈ blocks, ∀ I ∈ B, ∀ a ∈ afterName env.wrapFuncNames I.op, Quiet env a) (hfresh : Fresh env st)
    (hn : ∀ B ∈ blocks, 2 * B.length < n) : ∃ vss st', instrBlocks env n blocks st = .ok (vss, st') ∧
      st.next ≤ st'.next ∧ ∀ vs ∈ vss, ∀ v ∈ vs, LeftAlone env v := by
  induction blocks generalizing st with
  | nil => exact ⟨[], st, rfl, le_rfl, by simp⟩
  | cons B blocks ih =>
    have ⟨hB, hblocks⟩ := List.forall_mem_cons.mp hblocks
    have ⟨hquietB, hquiet⟩ := List.forall_mem_cons.mp hquiet
    have ⟨hnB, hn⟩ := List.forall_mem_cons.mp hn
    obtain ⟨vs, st₁, hvs, hnext₁, halone⟩ := instrBlock_ok hB hquietB hfresh hnB
    obtain ⟨vss, st₂, hvss, hnext₂, halones⟩ := ih hblocks hquiet (hfresh.mono hnext₁) hn
    refine ⟨vs :: vss, st₂, ?_, hnext₁.trans hnext₂, List.forall_mem_cons.mpr ⟨halone, halones⟩⟩
    rw [instrBlocks, hvs]
    exact bind_eq_ok.mpr ⟨_, rfl, bind_eq_ok.mpr ⟨_, hvss, rfl⟩⟩

theorem quiet_of_instrBlocks {blocks : List (List Inst)} {vss : List (List Visit)}
    (hblocks : ∀ B ∈ blocks, ∀ I ∈ B, Known env I) (hfresh : Fresh env st)
    (h : instrBlocks env n blocks st = .ok (vss, st')) :
    (∀ B ∈ blocks, ∀ I ∈ B, ∀ a ∈ afterName env.wrapFuncNames I.op, Quiet env a) ∧ st.next ≤ st'.next := by
  induction blocks generalizing st st' vss with
  | nil =>
    obtain ⟨rfl, rfl⟩ := h
    exact ⟨by simp, le_rfl⟩
  | cons B blocks ih =>
    have ⟨hB, hblocks⟩ := List.forall_mem_cons.mp hblocks
    rw [instrBlocks] at h
    obtain ⟨⟨vs, st₁⟩, hvs, h⟩ := bind_eq_ok.mp h
    obtain ⟨⟨vss', st₂⟩, hvss, h⟩ := bind_eq_ok.mp h
    have ⟨hquietB, hnext₁⟩ := quiet_of_instrBlock hB hfresh hvs
    have ⟨hquiet, hnext₂⟩ := ih hblocks (hfresh.mono hnext₁) hvss
    obtain ⟨rfl, rfl⟩ := h
    exact ⟨List.forall_mem_cons.mpr ⟨hquietB, hquiet⟩, hnext₁.trans hnext₂⟩

/-! ### The functions of a module -/

/-- The instructions of a function. -/
def Function.insts (F : Function) : List Inst := F.blocks.flatten

/-- The condition, of a function. -/
def FunctionQuiet (env : Env) (F : Function) : Prop :=
  (F.name = "main".toList → (∃ I B blocks, F.blocks = (I :: B) :: blocks) ∧ Quiet env "_before_main".toList) ∧
    ∀ I ∈ F.insts, ∀ a ∈ afterName env.wrapFuncNames I.op, Quiet env a

theorem allQuiet_iff {functions : List Function} : AllQuiet env functions ↔ ∀ F ∈ functions, FunctionQuiet env F := by
  unfold AllQuiet FunctionQuiet insts
  constructor
  · rintro ⟨hmain, hinsts⟩ F hF
    exact ⟨hmain F hF, fun I hI => hinsts I (List.mem_flatMap.mpr ⟨F, hF, hI⟩)⟩
  · intro h
    refine ⟨fun F hF => (h F hF).1, fun I hI => ?_⟩
    obtain ⟨F, hF, hI⟩ := List.mem_flatMap.mp hI
    exact (h F hF).2 I hI

/-- One function of `instrumentIR`. -/
def instrFunction (env : Env) (n : ℕ) (F : Function) (st : St) : Except Abort (List (List Visit) × St) := do
  let (blocks, st) ← instrFunctionEntrance env F st
  instrBlocks env n blocks st

theorem instrumentIR_cons {F : Function} {functions : List Function} :
    instrumentIR env n (F :: functions) st = (do
      let (vss, st) ← instrFunction env n F st
      let (vsss, st) ← instrumentIR env n functions st
      return (vss :: vsss, st)) := by
  rw [instrumentIR, instrFunction, bind_assoc]

theorem mem_insts {F : Function} : I ∈ F.insts ↔ ∃ B ∈ F.blocks, I ∈ B := List.mem_flatten

/-- `main` begins with the call of `_before_main`. -/
theorem instrFunctionEntrance_main {F : Function} {blocks : List (List Inst)} (hmain : F.name = "main".toList)
    (hblocks : F.blocks = (I :: B) :: blocks) : instrFunctionEntrance env F st =
      .ok ((insertedCall env st.next "_before_main".toList [] :: I :: B) :: blocks, { st with next := st.next + 1 }) := by
  rw [instrFunctionEntrance, if_pos hmain, hblocks]
  rfl

theorem exists_of_instrFunctionEntrance {F : Function} {r : List (List Inst) × St} (hmain : F.name = "main".toList)
    (h : instrFunctionEntrance env F st = .ok r) : ∃ I B blocks, F.blocks = (I :: B) :: blocks := by
  rw [instrFunctionEntrance, if_pos hmain] at h
  match hF : F.blocks with
  | [] =>
    rw [hF] at h
    cases h
  | [] :: _ =>
    rw [hF] at h
    cases h
  | (I :: B) :: blocks => exact ⟨I, B, blocks, rfl⟩

theorem instrFunction_ok {F : Function} (hF : ∀ I ∈ F.insts, Known env I) (hquiet : FunctionQuiet env F)
    (hfresh : Fresh env st) (hn : 2 * F.insts.length + 1 < n) : ∃ vss st', instrFunction env n F st = .ok (vss, st') ∧
      st.next ≤ st'.next ∧ ∀ vs ∈ vss, ∀ v ∈ vs, LeftAlone env v := by
  have hblocks : ∀ B ∈ F.blocks, ∀ I ∈ B, Known env I := fun B hB I hI => hF I (mem_insts.mpr ⟨B, hB, hI⟩)
  have hquietB : ∀ B ∈ F.blocks, ∀ I ∈ B, ∀ a ∈ afterName env.wrapFuncNames I.op, Quiet env a :=
    fun B hB I hI => hquiet.2 I (mem_insts.mpr ⟨B, hB, hI⟩)
  have hlength : ∀ B ∈ F.blocks, 2 * B.length + 1 < n := fun B hB => by
    have hle : B.length ≤ F.insts.length := (List.sublist_flatten_of_mem hB).length_le
    omega
  by_cases hmain : F.name = "main".toList
  · obtain ⟨⟨I, B, blocks, hF'⟩, hbefore⟩ := hquiet.1 hmain
    rw [hF'] at hblocks hquietB hlength
    have ⟨hB, hblocks⟩ := List.forall_mem_cons.mp hblocks
    have ⟨hquietB, hquietBs⟩ := List.forall_mem_cons.mp hquietB
    have ⟨hlengthB, hlengths⟩ := List.forall_mem_cons.mp hlength
    obtain ⟨n, rfl⟩ := Nat.exists_eq_succ_of_ne_zero (Nat.ne_zero_of_lt hn)
    have hfresh₁ : Fresh env { st with next := st.next + 1 } := hfresh.mono (Nat.le_succ _)
    obtain ⟨vs, st₁, hvs, hnext₁, halone⟩ := instrBlock_ok hB hquietB hfresh₁ (n := n) (by omega)
    obtain ⟨vss, st₂, hvss, hnext₂, halones⟩ := instrBlocks_ok (n := n + 1) hblocks hquietBs (hfresh₁.mono hnext₁)
      fun B hB => Nat.lt_of_succ_lt (hlengths B hB)
    have hname : IsInserted "_before_main".toList := by decide
    refine ⟨(⟨[], insertedCall env st.next "_before_main".toList [], []⟩ :: vs) :: vss, st₂, ?_,
      (Nat.le_succ _).trans (hnext₁.trans hnext₂), List.forall_mem_cons.mpr
        ⟨List.forall_mem_cons.mpr ⟨leftAlone_inserted hname hbefore, halone⟩, halones⟩⟩
    rw [instrFunction, instrFunctionEntrance_main hmain hF']
    refine bind_eq_ok.mpr ⟨_, rfl, ?_⟩
    dsimp only
    rw [instrBlocks, instrBlock_inserted hname (hfresh.ne le_rfl), if_pos hbefore, hvs]
    exact bind_eq_ok.mpr ⟨_, rfl, bind_eq_ok.mpr ⟨_, hvss, rfl⟩⟩
  · obtain ⟨vss, st', hvss, h⟩ := instrBlocks_ok (n := n) hblocks hquietB hfresh
      fun B hB => Nat.lt_of_succ_lt (hlength B hB)
    refine ⟨vss, st', ?_, h⟩
    rw [instrFunction, instrFunctionEntrance, if_neg hmain]
    exact hvss

theorem quiet_of_instrFunction {F : Function} {vss : List (List Visit)} (hF : ∀ I ∈ F.insts, Known env I)
    (hfresh : Fresh env st) (h : instrFunction env n F st = .ok (vss, st')) :
    FunctionQuiet env F ∧ st.next ≤ st'.next := by
  have hblocks : ∀ B ∈ F.blocks, ∀ I ∈ B, Known env I := fun B hB I hI => hF I (mem_insts.mpr ⟨B, hB, hI⟩)
  have hinsts : (∀ B ∈ F.blocks, ∀ I ∈ B, ∀ a ∈ afterName env.wrapFuncNames I.op, Quiet env a) →
      ∀ I ∈ F.insts, ∀ a ∈ afterName env.wrapFuncNames I.op, Quiet env a := by
    intro hquiet I hI
    obtain ⟨B, hB, hI⟩ := mem_insts.mp hI
    exact hquiet B hB I hI
  obtain ⟨⟨blocks, st₁⟩, hentrance, h⟩ := bind_eq_ok.mp h
  by_cases hmain : F.name = "main".toList
  · obtain ⟨I, B, blocks', hF'⟩ := exists_of_instrFunctionEntrance hmain hentrance
    rw [instrFunctionEntrance_main hmain hF'] at hentrance
    obtain ⟨rfl, rfl⟩ := Prod.mk.inj (Except.ok.inj hentrance)
    dsimp only at h
    rw [instrBlocks] at h
    obtain ⟨⟨vs, st₁⟩, hvs, h⟩ := bind_eq_ok.mp h
    obtain ⟨⟨vss', st₂⟩, hvss, h⟩ := bind_eq_ok.mp h
    obtain ⟨rfl, rfl⟩ := h
    match n, hvs with
    | n + 1, hvs =>
      rw [instrBlock_inserted (by decide) (hfresh.ne le_rfl)] at hvs
      split_ifs at hvs with hbefore
      obtain ⟨⟨vs', st₃⟩, hB, heq⟩ := map_eq_ok.mp hvs
      obtain ⟨rfl, rfl⟩ := Prod.mk.inj heq
      rw [hF'] at hblocks
      have ⟨hknown, hblocks⟩ := List.forall_mem_cons.mp hblocks
      have hfresh₁ : Fresh env { st with next := st.next + 1 } := hfresh.mono (Nat.le_succ _)
      have ⟨hquietB, hnext₁⟩ := quiet_of_instrBlock hknown hfresh₁ hB
      have ⟨hquiet, hnext₂⟩ := quiet_of_instrBlocks hblocks (hfresh₁.mono hnext₁) hvss
      refine ⟨⟨fun _ => ⟨⟨I, B, blocks', hF'⟩, hbefore⟩, hinsts ?_⟩, (Nat.le_succ _).trans (hnext₁.trans hnext₂)⟩
      rw [hF']
      exact List.forall_mem_cons.mpr ⟨hquietB, hquiet⟩
  · rw [instrFunctionEntrance, if_neg hmain] at hentrance
    obtain ⟨rfl, rfl⟩ := Prod.mk.inj (Except.ok.inj hentrance)
    have ⟨hquiet, hnext⟩ := quiet_of_instrBlocks hblocks hfresh h
    exact ⟨⟨fun h => absurd h hmain, hinsts hquiet⟩, hnext⟩

theorem instrumentIR_ok {functions : List Function} (hF : ∀ F ∈ functions, ∀ I ∈ F.insts, Known env I)
    (hquiet : ∀ F ∈ functions, FunctionQuiet env F) (hfresh : Fresh env st)
    (hn : ∀ F ∈ functions, 2 * F.insts.length + 1 < n) : ∃ out st', instrumentIR env n functions st = .ok (out, st') ∧
      ∀ vss ∈ out, ∀ vs ∈ vss, ∀ v ∈ vs, LeftAlone env v := by
  induction functions generalizing st with
  | nil => exact ⟨[], st, rfl, by simp⟩
  | cons F functions ih =>
    have ⟨hknown, hF⟩ := List.forall_mem_cons.mp hF
    have ⟨hquietF, hquiet⟩ := List.forall_mem_cons.mp hquiet
    have ⟨hnF, hn⟩ := List.forall_mem_cons.mp hn
    obtain ⟨vss, st₁, hvss, hnext, halone⟩ := instrFunction_ok hknown hquietF hfresh hnF
    obtain ⟨out, st₂, hout, halones⟩ := ih hF hquiet (hfresh.mono hnext) hn
    refine ⟨vss :: out, st₂, ?_, List.forall_mem_cons.mpr ⟨halone, halones⟩⟩
    rw [instrumentIR_cons]
    exact bind_eq_ok.mpr ⟨_, hvss, bind_eq_ok.mpr ⟨_, hout, rfl⟩⟩

theorem quiet_of_instrumentIR {functions : List Function} {out : List (List (List Visit))}
    (hF : ∀ F ∈ functions, ∀ I ∈ F.insts, Known env I) (hfresh : Fresh env st)
    (h : instrumentIR env n functions st = .ok (out, st')) : ∀ F ∈ functions, FunctionQuiet env F := by
  induction functions generalizing st st' out with
  | nil => simp
  | cons F functions ih =>
    have ⟨hknown, hF⟩ := List.forall_mem_cons.mp hF
    rw [instrumentIR_cons] at h
    obtain ⟨⟨vss, st₁⟩, hvss, h⟩ := bind_eq_ok.mp h
    obtain ⟨⟨out', st₂⟩, hout, -⟩ := bind_eq_ok.mp h
    have ⟨hquietF, hnext⟩ := quiet_of_instrFunction hknown hfresh hvss
    exact List.forall_mem_cons.mpr ⟨hquietF, ih hF (hfresh.mono hnext) hout⟩

/-! ### The ids -/

variable {M : Module} {modId : UInt64} {instIdMap : List (ℕ × UInt64)} {wrapFuncNames : List Str} {lines : List Str}

theorem mapM_eq_some {α β : Type} {f : α → Option β} {g : α → β} (hf : ∀ a b, f a = some b → b = g a) {l : List α}
    {l' : List β} (h : l.mapM f = some l') : l' = l.map g ∧ ∀ a ∈ l, f a = some (g a) := by
  induction l generalizing l' with
  | nil =>
    obtain rfl := Option.some.inj h
    exact ⟨rfl, by simp⟩
  | cons a l ih =>
    rw [List.mapM_cons, Option.bind_eq_bind, Option.bind_eq_some_iff] at h
    obtain ⟨b, hb, h⟩ := h
    obtain ⟨bs, hbs, h⟩ := Option.bind_eq_some_iff.mp h
    obtain rfl := Option.some.inj h
    obtain rfl := hf a b hb
    have ⟨hmap, hall⟩ := ih hbs
    exact ⟨congrArg _ hmap, List.forall_mem_cons.mpr ⟨hb, hall⟩⟩

/-- The entries of `InstIdMap_`, and that the ids that are looked up are defined. -/
theorem collectSrcInfo_spec (h : collectSrcInfo modId M = some instIdMap) :
    instIdMap = (insts M.functions).zipIdx.map (fun p => (p.1.ptr, UInt64.ofNat p.2)) ∧
      ∀ p ∈ (insts M.functions).zipIdx, p.1.op.isCollected → (computeUniqueId modId (UInt64.ofNat p.2)).isSome := by
  have ⟨hmap, hall⟩ := mapM_eq_some (g := fun p : Inst × ℕ => (p.1.ptr, UInt64.ofNat p.2)) (fun ⟨I, i⟩ b hb => by
    dsimp only at hb
    split_ifs at hb
    · obtain ⟨_, -, rfl⟩ := Option.map_eq_some_iff.mp hb
      rfl
    · exact (Option.some.inj hb).symm) h
  refine ⟨hmap, fun ⟨I, i⟩ hI hcollected => ?_⟩
  obtain ⟨id, hid, -⟩ := Option.map_eq_some_iff.mp ((if_pos hcollected).symm.trans (hall (I, i) hI))
  exact Option.isSome_iff_exists.mpr ⟨id, hid⟩

/-- **Every instruction of the module has an id.** -/
theorem known_of_collectSrcInfo (h : collectSrcInfo modId M = some instIdMap) (hI : I ∈ insts M.functions) :
    Known ⟨wrapFuncNames, modId, instIdMap, M.otherNames⟩ I := by
  have ⟨hmap, hid⟩ := collectSrcInfo_spec h
  obtain ⟨i, hi⟩ := List.mem_iff_getElem?.mp hI
  have hmem : (I.ptr, UInt64.ofNat i) ∈ instIdMap := by
    rw [hmap]
    exact List.mem_map.mpr ⟨(I, i), List.mem_zipIdx_iff_getElem?.mpr hi, rfl⟩
  refine ⟨⟨_, hmem, rfl⟩, fun hcollected => ?_⟩
  obtain ⟨e, he⟩ : ∃ e, instIdMap.find? (·.1 = I.ptr) = some e :=
    Option.isSome_iff_exists.mp (List.find?_isSome.mpr ⟨_, hmem, by simp⟩)
  -- the entry that is found is that of the same instruction, as no other has its address
  obtain ⟨⟨J, j⟩, hJ, rfl⟩ := List.mem_map.mp (hmap ▸ List.mem_of_find?_eq_some he)
  have hptr : J.ptr = I.ptr := by simpa using List.find?_some he
  have hmemJ : J ∈ insts M.functions := List.mem_of_getElem? (List.mem_zipIdx_iff_getElem?.mp hJ)
  obtain rfl := List.inj_on_of_nodup_map M.nodup hmemJ hI hptr
  obtain ⟨u, hu⟩ := Option.isSome_iff_exists.mp (hid _ hJ hcollected)
  refine ⟨u, ?_⟩
  rw [getInstId, he]
  dsimp only
  rw [hu]

theorem le_foldr_max {l : List ℕ} (hk : k ∈ l) : k ≤ l.foldr max 0 := by
  induction l with
  | nil => exact absurd hk List.not_mem_nil
  | cons m l ih =>
    rw [List.foldr_cons]
    obtain rfl | hk := List.mem_cons.mp hk
    · exact le_max_left _ _
    · exact (ih hk).trans (le_max_right _ _)

theorem fresh_of_collectSrcInfo (h : collectSrcInfo modId M = some instIdMap) (hst : st.next = freshPtr M) :
    Fresh ⟨wrapFuncNames, modId, instIdMap, M.otherNames⟩ st := by
  intro e he
  obtain ⟨⟨J, j⟩, hJ, rfl⟩ := List.mem_map.mp ((collectSrcInfo_spec h).1 ▸ he)
  have hmemJ : J ∈ insts M.functions := List.mem_of_getElem? (List.mem_zipIdx_iff_getElem?.mp hJ)
  rw [hst]
  exact Nat.lt_succ_of_le (le_foldr_max (List.mem_map.mpr ⟨J, hmemJ, rfl⟩))

/-! ### The main result -/

/-- **The loop leaves its own calls alone exactly where no name to wrap is part of the name of a function that it
comes to call**, and `main` has a body. -/
theorem settles_iff (hlines : loadWrapFuncDefs lines = some wrapFuncNames)
    (hmap : collectSrcInfo modId M = some instIdMap) :
    Settles lines modId M ↔ AllQuiet ⟨wrapFuncNames, modId, instIdMap, M.otherNames⟩ M.functions := by
  have hknown : ∀ F ∈ M.functions, ∀ I ∈ F.insts, Known ⟨wrapFuncNames, modId, instIdMap, M.otherNames⟩ I :=
    fun F hF I hI => known_of_collectSrcInfo hmap (List.mem_flatMap.mpr ⟨F, hF, hI⟩)
  rw [allQuiet_iff]
  constructor
  · rintro ⟨_, _, hlines', hmap', n, out, st, hrun, -⟩
    obtain rfl := Option.some.inj (hlines.symm.trans hlines')
    obtain rfl := Option.some.inj (hmap.symm.trans hmap')
    exact quiet_of_instrumentIR hknown (fresh_of_collectSrcInfo hmap rfl) hrun
  · intro hquiet
    obtain ⟨out, st, hrun, halone⟩ := instrumentIR_ok (n := 2 * (insts M.functions).length + 2) hknown hquiet
      (fresh_of_collectSrcInfo hmap (Eq.refl (St.next ⟨freshPtr M, 0, 0, 0⟩))) fun F hF => by
        have hle : F.insts.length ≤ (insts M.functions).length :=
          (List.sublist_flatten_of_mem (List.mem_map.mpr ⟨F, hF, rfl⟩)).length_le
        omega
    exact ⟨wrapFuncNames, instIdMap, hlines, hmap, _, out, st, hrun, halone⟩

/-- A module whose `main` reads a variable. -/
def mainReads : Module where
  functions := [⟨"main".toList, [[⟨0, .load (.value 0) false⟩, ⟨1, .other⟩]]⟩]
  otherNames := []
  nodup := by decide

/-- With `memcmp` to wrap, the calls around the read are left alone. -/
theorem settles_memcmp : Settles ["int memcmp(int n)".toList] 0 mainReads := by
  have hlines : loadWrapFuncDefs ["int memcmp(int n)".toList] = some ("memcmp".toList :: fixedNames) := by decide
  have hmap : collectSrcInfo 0 mainReads = some [(0, 0), (1, 1)] := by decide
  refine (settles_iff hlines hmap).mpr ⟨?_, ?_⟩
  · intro F hF hmain
    obtain rfl := List.mem_singleton.mp hF
    exact ⟨⟨_, _, _, rfl⟩, by decide⟩
  · decide

/-- With a function `load` to wrap, the call of `_after_load` is taken for one of the program. -/
theorem not_settles_load : ¬ Settles ["int load(int n)".toList] 0 mainReads := by
  rintro ⟨wrapFuncNames, instIdMap, hlines, hmap, n, out, st, hrun, -⟩
  have hknown : ∀ F ∈ mainReads.functions, ∀ I ∈ F.insts, Known ⟨wrapFuncNames, 0, instIdMap, []⟩ I :=
    fun F hF I hI => known_of_collectSrcInfo hmap (List.mem_flatMap.mpr ⟨F, hF, hI⟩)
  have hquiet := quiet_of_instrumentIR hknown (fresh_of_collectSrcInfo hmap rfl) hrun _ List.mem_cons_self
  have hload := hquiet.2 ⟨0, .load (.value 0) false⟩ List.mem_cons_self "_after_load".toList rfl
  have hlines' : loadWrapFuncDefs ["int load(int n)".toList] = some ("load".toList :: fixedNames) := by decide
  obtain rfl := Option.some.inj (hlines.symm.trans hlines')
  have hwrap : ContainsWrapped ("load".toList :: fixedNames) "_after_load".toList := by decide
  exact hload.elim List.not_mem_nil fun h => h hwrap

end Instrument

end Schnauzer
