import Mathlib.Computability.StateTransition
import Schnauzer.Instrument.InstrumentIR

/-!
# What a module does

What the code of a module does, for any meaning of its instructions and of the functions outside of it: the values
are of a type `V`, and all that the program shares with the rest of the world (its memory, its files, its other
threads) is of a type `W`. A call of a function of the runtime does nothing to the world: it is put in a log.

An observer is told of the instructions before and after they are run. The **recorder** tells what the
runtime should be told of a program.

## What is proved

* `step_of_rest` — one step, of the instruction that is next.
* `reaches_hook` — a call of a function of the runtime is one step, and changes only the log.
-/

namespace Schnauzer

namespace Instrument

open Scripts StateTransition

variable {V W : Type*}

/-! ### The code -/

/-- A function that is called, and its arguments. -/
abbrev Call (V : Type*) := Str × List V

/-- The code of a module. -/
structure Code where
  functions : List Function
  /-- The operands of an instruction that are not in its `Op`: the value that is stored, the function that is called
  through a pointer, and all those of another instruction. -/
  operands : ℕ → List Operand

/-- The operands of an instruction. -/
def Op.operands : Op → List Operand
  | .load pointer _ | .store pointer _ | .bitCast pointer => [pointer]
  | .call _ args => args
  | .other => []

/-- The function of a name that has a body. -/
def Code.lookup (P : Code) (func : Str) : Option Function :=
  P.functions.find? fun F => F.name = func ∧ F.blocks ≠ []

/-- A block of a function. -/
def Code.block (P : Code) (func : Str) (b : ℕ) : List Inst := ((P.lookup func).bind (·.blocks[b]?)).getD []

/-- All the operands of an instruction. -/
def Code.allOperands (P : Code) (I : Inst) : List Operand := I.op.operands ++ P.operands I.ptr

/-! ### The meaning -/

/-- Where an instruction goes. -/
inductive Next where
  | fall
  | jump (block : ℕ)
  | ret

/-- What the instructions do, and the functions outside of the module. -/
structure Meaning (V W : Type*) where
  int : UInt64 → V
  /-- A constant or an argument, in a function with these arguments. -/
  value : List V → ℕ → V
  /-- The instruction at an address, which the control comes to from a block, on the values of its operands; `none`
  where the program ends. -/
  run : ℕ → ℕ → List V → W → W × Option (V × Next)
  /-- The function that the instruction at an address calls through a pointer; `none` for other code. -/
  callee : ℕ → List V → Option Str
  /-- A function outside of the module; `none` where the program ends. -/
  outside : Str → List V → W → W × Option V

/-- A call of a function of the module. -/
structure Frame (V : Type*) where
  func : Str
  args : List V
  /-- The values of the instructions. -/
  regs : ℕ → V
  /-- The block that it came from. -/
  prev : ℕ
  block : ℕ
  /-- What is still to be run of the block. -/
  rest : List Inst
  /-- The call that it returns to. -/
  dest : ℕ
  /-- What the observer is told when it returns. -/
  told : V → List (Call V)

/-- A program that is run. -/
structure Config (V W : Type*) where
  stack : List (Frame V)
  world : W
  /-- The calls of functions of the runtime. -/
  log : List (Call V)
  /-- What the first function returned. -/
  status : Option V

/-- Who is told of the instructions. -/
structure Observer (V : Type*) where
  /-- At a block of a function. -/
  enter : Str → ℕ → List (Call V)
  /-- Before an instruction, on the values of its operands. -/
  before : Inst → List V → List (Call V)
  /-- After an instruction that gave a value. -/
  after : Inst → List V → V → List (Call V)

/-- What an instruction comes to. -/
inductive Outcome (V W : Type*) where
  | stop (world : W)
  | fall (value : V) (world : W) (calls : List (Call V))
  | jump (block : ℕ) (world : W)
  | ret (value : V) (world : W)
  | enter (func : Str) (args : List V)

/-- The value of an instruction. -/
def Frame.write (F : Frame V) (p : ℕ) (v : V) : Frame V := { F with regs := Function.update F.regs p v }

/-- The first instruction of a block. -/
def Frame.jump (P : Code) (F : Frame V) (b : ℕ) : Frame V :=
  { F with prev := F.block, block := b, rest := P.block F.func b }

variable [Inhabited V]

/-- A function that is called. -/
def Frame.call (P : Code) (func : Str) (args : List V) (dest : ℕ) (told : V → List (Call V)) : Frame V :=
  ⟨func, args, fun _ => default, 0, 0, P.block func 0, dest, told⟩

namespace Meaning

variable (m : Meaning V W) (P : Code)

omit [Inhabited V] in
/-- The value of an operand. -/
def eval (F : Frame V) : Operand → V
  | .inst p => F.regs p
  | .int n => m.int n
  | .value k => m.value F.args k

/-- A call of the function of a name. -/
def call (func : Str) (vs : List V) (w : W) : Outcome V W :=
  match P.lookup func with
  | some _ => .enter func vs
  | none =>
    if specials.contains func then .fall default w [(func, vs)]
    else match m.outside func vs w with
      | (w, none) => .stop w
      | (w, some v) => .fall v w []

omit [Inhabited V] in
/-- An instruction that is not a call. -/
def exec (F : Frame V) (I : Inst) (w : W) : Outcome V W :=
  match m.run I.ptr F.prev ((P.allOperands I).map (m.eval F)) w with
  | (w, none) => .stop w
  | (w, some (v, .fall)) => .fall v w []
  | (w, some (_, .jump b)) => .jump b w
  | (w, some (v, .ret)) => .ret v w

/-- An instruction. A cast gives the value that is cast, and an access that is volatile is one like the others. -/
def outcome (F : Frame V) (I : Inst) (w : W) : Outcome V W :=
  match I.op with
  | .bitCast pointer => .fall (m.eval F pointer) w []
  | .call (some func) args => m.call P func (args.map (m.eval F)) w
  | .call none args =>
    match m.callee I.ptr ((P.allOperands I).map (m.eval F)) with
    | some func => m.call P func (args.map (m.eval F)) w
    | none => m.exec P F I w
  | .load _ _ | .store _ _ | .other => m.exec P F I w

end Meaning

/-- What follows from the outcome of an instruction, in a frame whose rest is what comes after it. -/
def proceed (o : Observer V) (P : Code) (I : Inst) (vs : List V) (F : Frame V) (stack : List (Frame V))
    (c : Config V W) : Outcome V W → Config V W
  | .stop w => { c with stack := [], world := w }
  | .fall v w calls =>
    { c with stack := F.write I.ptr v :: stack, world := w, log := c.log ++ calls ++ o.after I vs v }
  | .jump b w => { c with stack := F.jump P b :: stack, world := w, log := c.log ++ o.enter F.func b }
  | .ret v w =>
    match stack with
    | [] => { c with stack := [], world := w, status := some v }
    | G :: stack => { c with stack := G.write F.dest v :: stack, world := w, log := c.log ++ F.told v }
  | .enter func args =>
    { c with
      stack := Frame.call P func args I.ptr (o.after I vs) :: F :: stack, log := c.log ++ o.enter func 0 }

/-- One step; `none` where the program has ended. -/
def step (o : Observer V) (m : Meaning V W) (P : Code) (c : Config V W) : Option (Config V W) :=
  match c.stack with
  | [] => none
  | F :: stack =>
    match F.rest with
    | [] => some { c with stack := [] }
    | I :: rest =>
      let vs := I.op.operands.map (m.eval F)
      some (proceed o P I vs { F with rest := rest } stack { c with log := c.log ++ o.before I vs }
        (m.outcome P F I c.world))

/-- A function of the module is called. -/
def start (o : Observer V) (P : Code) (func : Str) (args : List V) (w : W) : Config V W :=
  ⟨[Frame.call P func args 0 fun _ => []], w, o.enter func 0, none⟩

/-! ### The observers -/

/-- No one is told. -/
def silent : Observer V := ⟨fun _ _ => [], fun _ _ => [], fun _ _ _ => []⟩

/-- The function that is called before an instruction. -/
def beforeName (wrapFuncNames : List Str) : Op → Option Str
  | .load _ _ => some "_before_load".toList
  | .store _ _ => some "_before_store".toList
  | .call func args =>
    if afterName wrapFuncNames (.call func args) = some "_after_func_call".toList then some "_before_func_call".toList
    else none
  | _ => none

/-- What the runtime should be told: that `main` is entered, and before and after the instructions that are
instrumented, their ids. With them come the pointer of an access, and the value of `fork`. -/
def recorder (m : Meaning V W) (env : Env) : Observer V where
  enter func b := if func = "main".toList ∧ b = 0 then [("_before_main".toList, [])] else []
  before I vs :=
    match beforeName env.wrapFuncNames I.op, getInstId env I with
    | some a, .ok id =>
      match I.op with
      | .call _ _ => [(a, [m.int id])]
      | _ => [(a, m.int id :: vs)]
    | _, _ => []
  after I vs v :=
    match afterName env.wrapFuncNames I.op, getInstId env I with
    | some a, .ok id =>
      match I.op with
      | .call func _ => [(a, if func = some "fork".toList then [m.int id, v] else [m.int id])]
      | _ => [(a, m.int id :: vs)]
    | _, _ => []

/-! ### Steps -/

variable {o : Observer V} {m : Meaning V W} {P : Code} {c : Config V W} {F : Frame V} {stack : List (Frame V)}
  {I : Inst} {B rest : List Inst} {w : W} {log calls : List (Call V)} {status : Option V} {p q : ℕ} {v : V}

omit [Inhabited V] in
theorem Frame.write_regs_self : (F.write p v).regs p = v := Function.update_self ..

omit [Inhabited V] in
theorem Frame.write_regs_of_ne (h : q ≠ p) : (F.write p v).regs q = F.regs q := Function.update_of_ne h ..

theorem outcome_call {func : Str} {args : List Operand} (hop : I.op = .call (some func) args) :
    m.outcome P F I w = m.call P func (args.map (m.eval F)) w := by
  rw [Meaning.outcome, hop]

/-- **One step**, of the instruction that is next. -/
theorem step_of_rest (hrest : F.rest = I :: rest) : step o m P ⟨F :: stack, w, log, status⟩ =
    some (proceed o P I (I.op.operands.map (m.eval F)) { F with rest := rest } stack
      ⟨F :: stack, w, log ++ o.before I (I.op.operands.map (m.eval F)), status⟩ (m.outcome P F I w)) := by
  rw [step]
  dsimp only
  rw [hrest]

/-- A block that has no instruction more. -/
theorem step_of_nil (hrest : F.rest = []) : step o m P ⟨F :: stack, w, log, status⟩ = some ⟨[], w, log, status⟩ := by
  rw [step]
  dsimp only
  rw [hrest]

/-- **A call of a function of the runtime** changes the log, and a value that is its own. -/
theorem reaches_hook {a : Str} {args : List Operand} (ha : a ∈ specials) (hP : P.lookup a = none)
    (hrest : F.rest = ⟨p, .call (some a) args⟩ :: rest) :
    Reaches₁ (step silent m P) ⟨F :: stack, w, log, status⟩
      ⟨({ F with rest := rest }).write p default :: stack, w, log ++ [(a, args.map (m.eval F))], status⟩ := by
  refine Relation.TransGen.single (Option.mem_def.mpr ?_)
  have hcall : m.outcome P F ⟨p, .call (some a) args⟩ w = .fall default w [(a, args.map (m.eval F))] := by
    rw [outcome_call rfl, Meaning.call, hP]
    exact if_pos (List.contains_iff_mem.mpr ha)
  rw [step_of_rest hrest, hcall, proceed, silent]
  simp

/-- A cast. -/
theorem reaches_bitCast {pointer : Operand} (hrest : F.rest = ⟨p, .bitCast pointer⟩ :: rest) :
    Reaches₁ (step silent m P) ⟨F :: stack, w, log, status⟩
      ⟨({ F with rest := rest }).write p (m.eval F pointer) :: stack, w, log, status⟩ := by
  refine Relation.TransGen.single (Option.mem_def.mpr ?_)
  rw [step_of_rest hrest, Meaning.outcome, proceed, silent]
  simp

end Instrument

end Schnauzer
