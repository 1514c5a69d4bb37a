import Schnauzer.Instrument.ReplaceFunctionCall
import Schnauzer.Lib.Simulation

/-!
# An instrumented module does what the module does

`Instrument::runOnModule`: the code that `instrumentIR` leaves is simulated step by step by the one that
`replaceFunctionCall` leaves, where an instruction has the value of the one it stands for.

What the pass relies on: the functions of the runtime, the wrapped ones and their wrappers are not the module's, and a
wrapper does what the function does that it wraps.

## What is proved

* `Swaps.outcome_eq` — an instruction and what stands for it do the same.
* `Swaps.respects` — the simulation.
* `runOnModule_eval` — **the meaning of a module**: it ends as the instrumented one does, and its recorder is told the
  calls of the runtime that the instrumented one makes.
-/

namespace Schnauzer

namespace Instrument

open Scripts StateTransition Relation

variable {V W : Type*} [Inhabited V]

/-- What the pass relies on. -/
structure Relies (m : Meaning V W) (wrapFuncNames otherNames : List Str) (P : Code) : Prop where
  runtime : ∀ a ∈ specials, P.lookup a = none ∧ a ∉ otherNames
  wrapped : ∀ f ∈ wrapFuncNames, P.lookup f = none ∧ f ∉ specials
  wrapper : ∀ f ∈ wrapFuncNames, P.lookup (wrapperName f) = none ∧ wrapperName f ∉ otherNames
  same : ∀ f ∈ wrapFuncNames, ∀ id vs w, m.outside (wrapperName f) (m.int id :: vs) w = m.outside f vs w

/-- A block and the one that it was made into. -/
def Swapped (env : Env) (operands : ℕ → List Operand) (f : ℕ → ℕ) (N₁ : ℕ) : List Inst → List Inst → Prop :=
  List.Forall₂ fun I I' => Low operands N₁ I ∧ Stands env f I I'

/-- The second code is that of the first after `replaceFunctionCall`. -/
structure Swaps (m : Meaning V W) (env : Env) (f : ℕ → ℕ) (N₁ : ℕ) (P P' : Code) : Prop where
  operands : ∀ p, P'.operands p = (P.operands p).map (·.replaceUse f)
  functions : List.Forall₂ (fun F F' : Function => F'.name = F.name ∧
    List.Forall₂ (Swapped env P.operands f N₁) F.blocks F'.blocks) P.functions P'.functions
  injOn : Set.InjOn f {p | p < N₁}
  relies : Relies m env.wrapFuncNames env.otherNames P

/-- Two frames of one function, with the values under other addresses. -/
structure Renames (env : Env) (operands : ℕ → List Operand) (f : ℕ → ℕ) (N₁ : ℕ) (F F' : Frame V) : Prop where
  func : F'.func = F.func
  args : F'.args = F.args
  prev : F'.prev = F.prev
  block : F'.block = F.block
  regs : ∀ p < N₁, F'.regs (f p) = F.regs p
  told : F'.told = F.told
  rest : Swapped env operands f N₁ F.rest F'.rest

/-- The frames below the top, for the calls that it returns to. -/
inductive Under (env : Env) (operands : ℕ → List Operand) (f : ℕ → ℕ) (N₁ : ℕ) :
    ℕ → ℕ → List (Frame V) → List (Frame V) → Prop
  | nil {p p'} : Under env operands f N₁ p p' [] []
  | cons {p F F' stack stack'} : p < N₁ → Renames env operands f N₁ F F' →
    Under env operands f N₁ F.dest F'.dest stack stack' → Under env operands f N₁ p (f p) (F :: stack) (F' :: stack')

/-- A run of the one code and one of the other. -/
inductive Follows (env : Env) (operands : ℕ → List Operand) (f : ℕ → ℕ) (N₁ : ℕ) : Config V W → Config V W → Prop
  | done {w log status} : Follows env operands f N₁ ⟨[], w, log, status⟩ ⟨[], w, log, status⟩
  | running {F F' stack stack' w log status} : Renames env operands f N₁ F F' →
    Under env operands f N₁ F.dest F'.dest stack stack' →
    Follows env operands f N₁ ⟨F :: stack, w, log, status⟩ ⟨F' :: stack', w, log, status⟩

section Simulation

variable {m : Meaning V W} {env : Env} {P P' : Code} {operands : ℕ → List Operand} {f : ℕ → ℕ} {N₁ : ℕ} {F F' : Frame V}
  {stack stack' : List (Frame V)} {I I' : Inst} {B B' : List Inst} {w : W} {log : List (Call V)} {status : Option V}
  {p : ℕ} {v : V} {func : Str}

/-! ### Frames -/

omit [Inhabited V]

theorem Renames.eval (h : Renames env operands f N₁ F F') {x : Operand} (hx : ∀ p, x = .inst p → p < N₁) :
    m.eval F' (x.replaceUse f) = m.eval F x := by
  cases x with
  | inst p => exact h.regs p (hx p rfl)
  | int n => rfl
  | value k => exact congrArg (m.value · k) h.args

theorem Renames.map_eval (h : Renames env operands f N₁ F F') (xs : List Operand) (hxs : ∀ p, .inst p ∈ xs → p < N₁) :
    (xs.map (·.replaceUse f)).map (m.eval F') = xs.map (m.eval F) := by
  rw [List.map_map]
  exact List.map_congr_left fun _ hx => h.eval fun p heq => hxs p (heq ▸ hx)

/-- The value of an instruction, and of what stands for it. -/
theorem Renames.write (h : Renames env operands f N₁ F F') (hinj : Set.InjOn f {p | p < N₁}) (hp : p < N₁)
    (hrest : Swapped env operands f N₁ B B') (v : V) :
    Renames env operands f N₁ (({ F with rest := B } : Frame V).write p v)
      (({ F' with rest := B' } : Frame V).write (f p) v) :=
  ⟨h.func, h.args, h.prev, h.block, fun q hq => by
    by_cases hqp : q = p
    · rw [hqp, Frame.write_regs_self, Frame.write_regs_self]
    · rw [Frame.write_regs_of_ne hqp, Frame.write_regs_of_ne fun heq => hqp (hinj hq hp heq)]
      exact h.regs q hq, h.told, hrest⟩

/-! ### The functions -/

theorem Swaps.lookup (h : Swaps m env f N₁ P P') (func : Str) :
    (P.lookup func = none ∧ P'.lookup func = none) ∨
      ∃ G G', P.lookup func = some G ∧ P'.lookup func = some G' ∧
        List.Forall₂ (Swapped env P.operands f N₁) G.blocks G'.blocks := by
  obtain h | ⟨G, G', hG, hG', -, hblocks⟩ := find?_forall₂ (f := fun F => F.name = func ∧ F.blocks ≠ [])
    (g := fun F => F.name = func ∧ F.blocks ≠ []) h.functions fun F F' hF => by
      rw [decide_eq_decide, hF.1, ← List.length_pos_iff, ← List.length_pos_iff, hF.2.length_eq]
  · exact Or.inl h
  · exact Or.inr ⟨G, G', hG, hG', hblocks⟩

theorem Swaps.lookup_eq_none (h : Swaps m env f N₁ P P') (hfunc : P.lookup func = none) : P'.lookup func = none := by
  obtain ⟨-, h⟩ | ⟨G, G', hG, -⟩ := h.lookup func
  · exact h
  · rw [hfunc] at hG
    cases hG

/-- The blocks of a function in both. -/
theorem Swaps.block (h : Swaps m env f N₁ P P') (func : Str) (b : ℕ) :
    Swapped env P.operands f N₁ (P.block func b) (P'.block func b) := by
  unfold Code.block
  obtain ⟨hG, hG'⟩ | ⟨G, G', hG, hG', hblocks⟩ := h.lookup func
  · rw [hG, hG']
    exact .nil
  · rw [hG, hG', Option.bind_some, Option.bind_some]
    cases hB : G.blocks[b]? with
    | some B =>
      obtain ⟨B', hB', hswapped⟩ := CausalOrder.forall₂_getElem? hblocks hB
      rw [hB']
      exact hswapped
    | none =>
      rw [List.getElem?_eq_none (hblocks.length_eq.symm.trans_le (List.getElem?_eq_none_iff.mp hB))]
      exact .nil

/-! ### The instructions -/

theorem operands_replaceUses (op : Op) : (op.replaceUses f).operands = op.operands.map (·.replaceUse f) := by
  cases op <;> rfl

theorem Swaps.exec_eq (h : Swaps m env f N₁ P P') (hI : Low P.operands N₁ I)
    (hF : Renames env P.operands f N₁ F F') :
    m.exec P' F' ⟨I.ptr, I.op.replaceUses f⟩ w = m.exec P F I w := by
  have hoperands : P'.allOperands ⟨I.ptr, I.op.replaceUses f⟩ = (P.allOperands I).map (·.replaceUse f) := by
    rw [Code.allOperands, Code.allOperands, h.operands, operands_replaceUses, List.map_append]
  rw [Meaning.exec, Meaning.exec, hoperands, hF.map_eval (P.allOperands I) hI.operands, hF.prev]

variable [Inhabited V]

theorem Swaps.call_eq (h : Swaps m env f N₁ P P') (func : Str) (vs : List V) (w : W) :
    m.call P' func vs w = m.call P func vs w := by
  rw [Meaning.call, Meaning.call]
  obtain ⟨hG, hG'⟩ | ⟨G, G', hG, hG', -⟩ := h.lookup func
  · rw [hG, hG']
  · rw [hG, hG']

omit [Inhabited V] in
/-- No name of a wrapper is one of the runtime's. -/
theorem wrapperName_not_mem (func : Str) : wrapperName func ∉ specials := by
  have hspecials : ∀ a ∈ specials, ¬ "_wrapper".toList <:+ a := by decide
  exact fun h => hspecials _ h (List.suffix_append func _)

/-- **A wrapper** is called for the function that it wraps. -/
theorem Swaps.call_wrapper (h : Swaps m env f N₁ P P') (hfunc : func ∈ env.wrapFuncNames) (id : UInt64) (vs : List V)
    (w : W) : m.call P' (wrapperName func) (m.int id :: vs) w = m.call P func vs w := by
  have hwrapper := h.lookup_eq_none (h.relies.wrapper func hfunc).1
  obtain ⟨hnone, hspecial⟩ := h.relies.wrapped func hfunc
  rw [Meaning.call, Meaning.call, hwrapper, hnone]
  dsimp only
  rw [if_neg fun h => wrapperName_not_mem func (List.contains_iff_mem.mp h),
    if_neg fun h => hspecial (List.contains_iff_mem.mp h), h.relies.same func hfunc]

/-- **An instruction and what stands for it do the same.** -/
theorem Swaps.outcome_eq (h : Swaps m env f N₁ P P') (hI : Low P.operands N₁ I) (hstands : Stands env f I I')
    (hF : Renames env P.operands f N₁ F F') : m.outcome P' F' I' w = m.outcome P F I w := by
  have hargs := hF.map_eval (m := m) I.op.operands fun p hp => hI.operands p (List.mem_append_left _ hp)
  cases hstands with
  | @wrapped func args id hop hfunc =>
    rw [hop] at hargs
    replace hargs : (args.map (·.replaceUse f)).map (m.eval F') = args.map (m.eval F) := hargs
    rw [outcome_call hop, outcome_call rfl, List.map_cons, hargs]
    exact h.call_wrapper hfunc id _ w
  | kept _ _ =>
    have hexec := h.exec_eq (m := m) (w := w) hI hF
    have hall := hF.map_eval (m := m) (P.allOperands I) hI.operands
    obtain ⟨ptr, op⟩ := I
    cases op with
    | load pointer isVolatile => exact hexec
    | store pointer isVolatile => exact hexec
    | other => exact hexec
    | bitCast pointer =>
      have hpointer : m.eval F' (pointer.replaceUse f) = m.eval F pointer := List.singleton_injective hargs
      rw [Op.replaceUses, Meaning.outcome, Meaning.outcome]
      dsimp only
      rw [hpointer]
    | call func args =>
      replace hargs : (args.map (·.replaceUse f)).map (m.eval F') = args.map (m.eval F) := hargs
      cases func with
      | some func =>
        rw [outcome_call (I := ⟨ptr, .call (some func) args⟩) rfl, Op.replaceUses,
          outcome_call (I := ⟨ptr, .call (some func) _⟩) rfl, hargs, h.call_eq]
      | none =>
        have hoperands : P'.allOperands ⟨ptr, .call none (args.map (·.replaceUse f))⟩ =
            (P.allOperands ⟨ptr, .call none args⟩).map (·.replaceUse f) := by
          rw [Code.allOperands, Code.allOperands, h.operands, List.map_append]
          rfl
        rw [Op.replaceUses, Meaning.outcome, Meaning.outcome]
        dsimp only
        rw [hoperands, hall]
        cases m.callee ptr ((P.allOperands ⟨ptr, .call none args⟩).map (m.eval F)) with
        | some func =>
          dsimp only
          rw [hargs, h.call_eq]
        | none => exact hexec

omit [Inhabited V] in
theorem Stands.ptr_eq (h : Stands env f I I') : I'.ptr = f I.ptr := by
  cases h with
  | kept _ hptr => exact hptr.symm
  | wrapped _ _ => rfl

/-! ### The simulation -/

/-- What follows from the outcome of an instruction, in both. -/
theorem Swaps.follows_proceed (h : Swaps m env f N₁ P P') (hp : I.ptr < N₁) (hptr : I'.ptr = f I.ptr)
    (hF : Renames env P.operands f N₁ F F') (hrest : Swapped env P.operands f N₁ B B')
    (hunder : Under env P.operands f N₁ F.dest F'.dest stack stack') (out : Outcome V W) (vs vs' : List V)
    (s s' : List (Frame V)) : Follows env P.operands f N₁
      (proceed silent P I vs { F with rest := B } stack ⟨s, w, log, status⟩ out)
      (proceed silent P' I' vs' { F' with rest := B' } stack' ⟨s', w, log, status⟩ out) := by
  cases out with
  | stop w => exact .done
  | fall v w calls =>
    rw [proceed, proceed, hptr]
    exact .running (hF.write h.injOn hp hrest v) hunder
  | jump b w =>
    have hblock : Swapped env P.operands f N₁ (P.block F.func b) (P'.block F'.func b) := by
      rw [hF.func]
      exact h.block F.func b
    exact .running ⟨hF.func, hF.args, hF.block, rfl, hF.regs, hF.told, hblock⟩ hunder
  | ret v w =>
    generalize hdest : F'.dest = dest at hunder
    cases hunder with
    | nil => exact .done
    | @cons _ G G' stack stack' hp hG hunder =>
      rw [proceed, proceed]
      dsimp only
      rw [hF.told]
      exact .running (hG.write h.injOn hp hG.rest v) hunder
  | enter func args =>
    rw [proceed, proceed, hptr]
    refine .running ⟨rfl, rfl, rfl, rfl, fun _ _ => rfl, rfl, h.block func 0⟩ ?_
    exact .cons hp ⟨hF.func, hF.args, hF.prev, hF.block, hF.regs, hF.told, hrest⟩ hunder

/-- **The simulation**, step by step. -/
theorem Swaps.respects (h : Swaps m env f N₁ P P') :
    Respects (step silent m P) (step silent m P') (Follows env P.operands f N₁) := by
  intro c c' hrel
  cases hrel with
  | done => rfl
  | @running F F' stack stack' w log status hF hunder =>
    have hrest := hF.rest
    generalize hB' : F'.rest = R at hrest
    generalize hB : F.rest = B at hrest
    cases hrest with
    | nil =>
      rw [step_of_nil hB]
      exact ⟨_, .done, TransGen.single (Option.mem_def.mpr (step_of_nil hB'))⟩
    | @cons I I' B B' hI hrest =>
      rw [step_of_rest hB]
      refine ⟨_, ?_, TransGen.single (Option.mem_def.mpr (step_of_rest hB'))⟩
      rw [h.outcome_eq hI.1 hI.2 hF]
      exact h.follows_proceed hI.1.ptr hI.2.ptr_eq hF hrest hunder _ _ _ _ _

end Simulation

/-! ### The code between the loops -/

section Between

variable {env : Env} {operands : ℕ → List Operand} {N N₁ : ℕ} {I : Inst} {B B' before after : List Inst}
  {G G' : Function} {functions functions' : List Function}

/-- The instructions of the module are where they were among the new ones. -/
theorem Piece.filter_before (h : Piece env N N₁ I before after) : before.filter (·.ptr < N) = [] ∧
    after.filter (·.ptr < N) = [] := by
  cases h with
  | plain hb ha => exact ⟨rfl, rfl⟩
  | @access pointer isVolatile b a id c p q hop hb ha hid hc hcp hpq hq =>
    constructor <;> simp <;> omega
  | @fork args a id q hop hb ha hid hq hq₁ => simpa using hq
  | @call func args b a id p q hop hf hb ha hid hp hpq hq =>
    constructor <;> simp <;> omega

theorem Woven.map_ptr_filter (h : Woven env operands N N₁ B B') :
    (B'.filter (·.ptr < N)).map Inst.ptr = B.map Inst.ptr := by
  induction h with
  | nil => rfl
  | @cons I before after B B' hI hpiece _ ih =>
    obtain ⟨hbefore, hafter⟩ := hpiece.filter_before
    rw [List.filter_append, hbefore, List.nil_append, List.filter_cons_of_pos (by simpa using hI.ptr),
      List.filter_append, hafter, List.nil_append, List.map_cons, ih, List.map_cons]

/-- The new instructions have addresses below `N₁`, and so have their operands. -/
theorem Piece.low (h : Piece env N N₁ I before after) (hI : Low operands N I) (hN : N ≤ N₁)
    (hnil : ∀ p, N ≤ p → operands p = []) : (∀ J ∈ before, Low operands N₁ J) ∧ ∀ J ∈ after, Low operands N₁ J := by
  cases h with
  | plain hb ha => exact ⟨by simp, by simp⟩
  | @access pointer isVolatile b a id c p q hop hb ha hid hc hcp hpq hq =>
    have hpointer : ∀ p, .inst p = pointer → p < N₁ := fun p hp => (hI.operands p (by
      rw [operands_of_access hop, hp]
      exact List.mem_cons_self)).trans_le hN
    have hhook : ∀ r a, c ≤ r → r < N₁ → Low operands N₁ (hook r a [.int id, .inst c]) := fun r a hr hr₁ =>
      ⟨hr₁, by rw [hnil r (hc.trans hr)]; simp [Op.operands]; omega⟩
    refine ⟨List.forall_mem_cons.mpr ⟨⟨hcp.trans (hpq.trans hq), ?_⟩, List.forall_mem_singleton.mpr
      (hhook p b (by omega) (by omega))⟩, List.forall_mem_singleton.mpr (hhook q a (by omega) hq)⟩
    rw [hnil c hc]
    simpa [Op.operands] using hpointer
  | @fork args a id q hop hb ha hid hq hq₁ =>
    refine ⟨by simp, List.forall_mem_singleton.mpr ⟨hq₁, ?_⟩⟩
    rw [hnil q hq]
    simpa [Op.operands] using hI.ptr.trans_le hN
  | @call func args b a id p q hop hf hb ha hid hp hpq hq =>
    refine ⟨List.forall_mem_singleton.mpr ⟨hpq.trans hq, ?_⟩, List.forall_mem_singleton.mpr ⟨hq, ?_⟩⟩
    · rw [hnil p hp]
      simp [Op.operands]
    · rw [hnil q (hp.trans hpq.le)]
      simp [Op.operands]

theorem operands_setVolatile (op : Op) : op.setVolatile.operands = op.operands := by cases op <;> rfl

theorem Woven.low (h : Woven env operands N N₁ B B') (hN : N ≤ N₁) (hnil : ∀ p, N ≤ p → operands p = []) :
    ∀ J ∈ B', Low operands N₁ J := by
  induction h with
  | nil => simp
  | @cons I before after B B' hI hpiece _ ih =>
    obtain ⟨hbefore, hafter⟩ := hpiece.low hI hN hnil
    have hinst : Low operands N₁ ⟨I.ptr, I.op.setVolatile⟩ :=
      ⟨hI.ptr.trans_le hN, fun p hp => (hI.operands p (operands_setVolatile I.op ▸ hp)).trans_le hN⟩
    exact List.forall_mem_append.mpr ⟨hbefore, List.forall_mem_cons.mpr ⟨hinst,
      List.forall_mem_append.mpr ⟨hafter, ih⟩⟩⟩

theorem Laid.map_ptr_filter (h : Laid env operands N N₁ G G') :
    (G'.insts.filter (·.ptr < N)).map Inst.ptr = G.insts.map Inst.ptr := by
  have hblocks : G'.blocks.map (fun B => (B.filter (·.ptr < N)).map Inst.ptr) = G.blocks.map (·.map Inst.ptr) := by
    refine List.ext_getElem? fun b => ?_
    rw [List.getElem?_map, List.getElem?_map]
    cases hB : G.blocks[b]? with
    | none =>
      rw [List.getElem?_eq_none (h.length.trans_le (List.getElem?_eq_none_iff.mp hB))]
      rfl
    | some B =>
      obtain ⟨hooks, B', hB', hentrance, hwoven⟩ := h.block b B hB
      rw [hB', Option.map_some, Option.map_some, List.filter_append, List.map_append, hwoven.map_ptr_filter]
      have hhooks : hooks.filter (·.ptr < N) = [] := by
        unfold Entrance at hentrance
        split_ifs at hentrance with hmain
        · obtain ⟨q, rfl, hq, -⟩ := hentrance
          simpa using hq
        · rw [hentrance]
          rfl
      rw [hhooks]
      rfl
  rw [Function.insts, List.filter_flatten, List.map_flatten, List.map_map, Function.insts, List.map_flatten, ← hblocks]
  rfl

theorem Laid.low (h : Laid env operands N N₁ G G') (hN : N ≤ N₁) (hnil : ∀ p, N ≤ p → operands p = []) :
    ∀ J ∈ G'.insts, Low operands N₁ J := by
  intro J hJ
  obtain ⟨B', hB', hJ⟩ := mem_insts.mp hJ
  obtain ⟨b, hb, hBb⟩ := List.mem_iff_getElem.mp hB'
  obtain ⟨hooks, B'', hB'', hentrance, hwoven⟩ := h.block b _ (List.getElem?_eq_getElem (h.length ▸ hb))
  rw [List.getElem?_eq_getElem hb, hBb] at hB''
  obtain rfl := Option.some.inj hB''
  obtain hJ | hJ := List.mem_append.mp hJ
  · unfold Entrance at hentrance
    split_ifs at hentrance with hmain
    · obtain ⟨q, rfl, hq, hq₁⟩ := hentrance
      obtain rfl := List.mem_singleton.mp hJ
      refine ⟨hq₁, ?_⟩
      rw [hnil q hq]
      simp [Op.operands]
    · rw [hentrance] at hJ
      cases hJ
  · exact hwoven.low hN hnil J hJ

/-- The instructions of the module are where they were. -/
theorem map_ptr_filter_insts (h : List.Forall₂ (Laid env operands N N₁) functions functions') :
    ((insts functions').filter (·.ptr < N)).map Inst.ptr = (insts functions).map Inst.ptr := by
  induction h with
  | nil => rfl
  | @cons G G' functions functions' hlaid _ ih =>
    have hG := hlaid.map_ptr_filter
    unfold insts at ih ⊢
    rw [List.flatMap_cons, List.filter_append, List.map_append, ih, List.flatMap_cons, List.map_append]
    exact congrArg (· ++ _) hG

theorem low_of_laid (h : List.Forall₂ (Laid env operands N N₁) functions functions') (hN : N ≤ N₁)
    (hnil : ∀ p, N ≤ p → operands p = []) : ∀ J ∈ insts functions', Low operands N₁ J := by
  induction h with
  | nil => simp [insts]
  | @cons G G' functions functions' hlaid _ ih =>
    unfold insts at ih ⊢
    rw [List.flatMap_cons]
    exact List.forall_mem_append.mpr ⟨hlaid.low hN hnil, ih⟩

end Between

/-! ### The whole pass -/

section Pass

theorem forall₂_zipWith {α β γ : Type*} {R : α → β → Prop} {Q : α → γ → Prop} {g : α → β → γ} {l : List α} {l' : List β}
    (h : List.Forall₂ R l l') (hQ : ∀ x y, y ∈ l' → R x y → Q x (g x y)) : List.Forall₂ Q l (List.zipWith g l l') := by
  induction h with
  | nil => exact .nil
  | cons hxy _ ih =>
    exact .cons (hQ _ _ List.mem_cons_self hxy) (ih fun x y hy => hQ x y (List.mem_cons_of_mem _ hy))

theorem forall₂_map {α β γ : Type*} {R : α → β → Prop} {Q : α → γ → Prop} {g : β → γ} {l : List α} {l' : List β}
    (h : List.Forall₂ R l l') (hQ : ∀ x y, y ∈ l' → R x y → Q x (g y)) : List.Forall₂ Q l (l'.map g) := by
  induction h with
  | nil => exact .nil
  | cons hxy _ ih =>
    exact .cons (hQ _ _ List.mem_cons_self hxy) (ih fun x y hy => hQ x y (List.mem_cons_of_mem _ hy))

variable {env : Env} {operands : ℕ → List Operand} {N N₁ : ℕ} {functions : List Function}
  {out : List (List (List Replaced))} {I : Inst} {r : Replaced}

/-- The instructions that the loop of `replaceFunctionCall` comes to are those of the code. -/
theorem map_inst_eq (h : AllMarked env functions out) :
    out.flatten.flatten.map Replaced.inst = insts functions := by
  have hblock : ∀ {B rs}, List.Forall₂ (Marked env) B rs → rs.map Replaced.inst = B := by
    intro B rs h
    induction h with
    | nil => rfl
    | cons hr _ ih => rw [List.map_cons, ih, hr.inst_eq]
  have hfunction : ∀ {blocks rss}, List.Forall₂ (List.Forall₂ (Marked env)) blocks rss →
      rss.flatten.map Replaced.inst = blocks.flatten := by
    intro blocks rss h
    induction h with
    | nil => rfl
    | cons hrs _ ih => rw [List.flatten_cons, List.map_append, ih, hblock hrs, List.flatten_cons]
  induction h with
  | nil => rfl
  | cons hrss _ ih =>
    rw [List.flatten_cons, List.flatten_append, List.map_append, ih, hfunction hrss, insts, insts, List.flatMap_cons]

/-- The id that is found is that of an instruction of the module. -/
theorem lt_of_getInstId {id : UInt64} (hids : ∀ e ∈ env.instIdMap, e.1 < N) (h : getInstId env I = .ok id) :
    I.ptr < N := by
  by_contra hlt
  have hfresh := @getInstId_of_fresh env I fun e he heq => hlt (heq ▸ hids e he)
  rw [h] at hfresh
  cases hfresh

theorem Marked.lt_of_isSome (h : Marked env I r) (hids : ∀ e ∈ env.instIdMap, e.1 < N) (hr : r.newCall.isSome) :
    I.ptr < N := by
  cases h with
  | kept _ => cases hr
  | wrapped _ _ hid => exact lt_of_getInstId hids hid

/-- Every mark is of an instruction of the code. -/
theorem exists_marked (h : AllMarked env functions out)
    (hr : r ∈ out.flatten.flatten) : Marked env r.inst r := by
  obtain ⟨rs, hrs, hr⟩ := List.mem_flatten.mp hr
  obtain ⟨rss, hrss, hrs⟩ := List.mem_flatten.mp hrs
  have hmem : ∀ {α β : Type} {R : α → β → Prop} {l : List α} {l' : List β} {y : β}, List.Forall₂ R l l' → y ∈ l' →
      ∃ x ∈ l, R x y := by
    intro α β R l l' y h hy
    induction h with
    | nil => cases hy
    | cons hxy _ ih =>
      obtain rfl | hy := List.mem_cons.mp hy
      · exact ⟨_, List.mem_cons_self, hxy⟩
      · obtain ⟨x, hx, hR⟩ := ih hy
        exact ⟨x, List.mem_cons_of_mem _ hx, hR⟩
  obtain ⟨F, -, hF⟩ := hmem h hrss
  obtain ⟨B, -, hB⟩ := hmem hF hrs
  obtain ⟨I, -, hI⟩ := hmem hB hr
  exact hI.inst_eq.symm ▸ hI

/-- The new calls are apart from the instructions of the code. -/
theorem apart_of_marked {N₂ : ℕ}
    (h : AllMarked env functions out)
    (hids : ∀ e ∈ env.instIdMap, e.1 < N) (hnodup : (((insts functions).filter (·.ptr < N)).map Inst.ptr).Nodup)
    (hlow : ∀ I ∈ insts functions, Low operands N₁ I)
    (hnew : NewPtrs (out.flatten.flatten.flatMap Replaced.new) N₁ N₂) : Apart N N₁ out.flatten.flatten where
  wrapped r hr hsome := (exists_marked h hr).lt_of_isSome hids hsome
  nodup := by
    rw [← map_inst_eq h, List.filter_map, List.map_map] at hnodup
    exact hnodup
  old r hr := (hlow r.inst (map_inst_eq h ▸ List.mem_map.mpr ⟨r, hr, rfl⟩)).ptr
  new := ⟨N₂, hnew⟩

variable {V W : Type*} {m : Meaning V W} {P P' : Code} {M : Program} {lines wrapFuncNames : List Str} {modId : UInt64}
  {instIdMap : List (ℕ × UInt64)} {n : ℕ} {func : Str}

/-- **What `replaceFunctionCall` makes of the code.** -/
theorem swaps_of_marked
    (h : AllMarked env functions out)
    (hapart : Apart N N₁ out.flatten.flatten) (hlow : ∀ I ∈ insts functions, Low operands N₁ I)
    (hrelies : Relies m env.wrapFuncNames env.otherNames ⟨functions, operands⟩) :
    Swaps m env (useOf (usesOf out.flatten.flatten)) N₁ ⟨functions, operands⟩ (codeOf functions operands out) where
  operands _ := rfl
  functions := forall₂_zipWith h fun F rss hrss hblocks => ⟨rfl, forall₂_map hblocks fun B rs hrs hB =>
    forall₂_map hB fun I r hr hI => by
      have hmem : r ∈ out.flatten.flatten := List.mem_flatten.mpr ⟨rs, List.mem_flatten.mpr ⟨rss, hrss, hrs⟩, hr⟩
      have hinst : r.inst ∈ insts functions := map_inst_eq h ▸ List.mem_map.mpr ⟨r, hmem, rfl⟩
      exact ⟨hI.inst_eq ▸ hlow _ hinst, hI.stands hapart hmem⟩⟩
  injOn := hapart.useOf_injOn
  relies := hrelies

theorem Relies.of_weaves (h : Relies m env.wrapFuncNames env.otherNames P) (hweaves : Weaves env N N₁ P P') :
    Relies m env.wrapFuncNames env.otherNames P' where
  runtime a ha := ⟨hweaves.lookup_eq_none.mpr (h.runtime a ha).1, (h.runtime a ha).2⟩
  wrapped f hf := ⟨hweaves.lookup_eq_none.mpr (h.wrapped f hf).1, (h.wrapped f hf).2⟩
  wrapper f hf := ⟨hweaves.lookup_eq_none.mpr (h.wrapper f hf).1, (h.wrapper f hf).2⟩
  same := h.same

theorem Program.ptr_lt (M : Program) (hI : I ∈ insts M.functions) : I.ptr < freshPtr M.toModule :=
  Nat.lt_succ_of_le (le_foldr_max (List.mem_map.mpr ⟨I, hI, rfl⟩))

theorem Program.low (M : Program) (hI : I ∈ insts M.functions) : Low M.operands (freshPtr M.toModule) I :=
  ⟨M.ptr_lt hI, fun p hp => by
    obtain ⟨J, hJ, rfl⟩ := M.closed I hI p hp
    exact M.ptr_lt hJ⟩

theorem Program.operands_of_le (M : Program) {p : ℕ} (hp : freshPtr M.toModule ≤ p) : M.operands p = [] :=
  M.operands_eq_nil p fun _ hI heq => (M.ptr_lt hI).not_ge (heq ▸ hp)

/-- **The two passes**: the code between them, and the code that is left. -/
theorem exists_between (hlines : loadWrapFuncDefs lines = some wrapFuncNames)
    (hmap : collectSrcInfo modId M.toModule = some instIdMap) (hrun : runOnModule n lines modId M = some P')
    (hrelies : Relies m wrapFuncNames M.otherNames M.code) : ∃ N N₁ P₁ f,
      Weaves ⟨wrapFuncNames, modId, instIdMap, M.otherNames⟩ N N₁ M.code P₁ ∧
      Swaps m ⟨wrapFuncNames, modId, instIdMap, M.otherNames⟩ f N₁ P₁ P' := by
  obtain ⟨_, hlines', hrun⟩ := Option.bind_eq_some_iff.mp hrun
  obtain ⟨_, hmap', hrun⟩ := Option.bind_eq_some_iff.mp hrun
  obtain rfl := Option.some.inj (hlines.symm.trans hlines')
  obtain rfl := Option.some.inj (hmap.symm.trans hmap')
  obtain ⟨⟨out, st⟩, hout, hrun⟩ := Option.bind_eq_some_iff.mp hrun
  obtain ⟨⟨out', st'⟩, hreplace, hrun⟩ := Option.bind_eq_some_iff.mp hrun
  obtain rfl := Option.some.inj hrun
  let env : Env := ⟨wrapFuncNames, modId, instIdMap, M.otherNames⟩
  have hout' : instrumentIR env n M.functions ⟨freshPtr M.toModule, 0, 0, 0⟩ = .ok (out, st) := by
    match hir : instrumentIR env n M.functions ⟨freshPtr M.toModule, 0, 0, 0⟩, hout with
    | .ok _, h => exact congrArg Except.ok (Option.some.inj h)
  have hids : ∀ e ∈ env.instIdMap, e.1 < freshPtr M.toModule :=
    fresh_of_collectSrcInfo hmap (Eq.refl (St.next ⟨freshPtr M.toModule, 0, 0, 0⟩))
  obtain ⟨hlaid, hN⟩ := laid_of_instrumentIR (fun a ha => (hrelies.runtime a ha).2) (fun _ hI => M.low hI) le_rfl hids
    hout'
  have hweaves : Weaves env (freshPtr M.toModule) st.next M.code
      ⟨List.zipWith functionOf M.functions out, M.operands⟩ :=
    ⟨rfl, hlaid, fun a ha => (hrelies.runtime a ha).1⟩
  have hlow := low_of_laid hlaid hN fun p hp => M.operands_of_le hp
  obtain ⟨hmarked, hnew⟩ := marked_of_replaceFunctionCall (fun f hf => (hrelies.wrapper f hf).2) hreplace
  have hnodup : (((insts (List.zipWith functionOf M.functions out)).filter (·.ptr < freshPtr M.toModule)).map
      Inst.ptr).Nodup := by
    rw [map_ptr_filter_insts hlaid]
    exact M.nodup
  have hapart := apart_of_marked hmarked hids hnodup hlow hnew
  exact ⟨_, _, _, _, hweaves, swaps_of_marked hmarked hapart hlow (hrelies.of_weaves hweaves)⟩

/-- What is observed of a run: the world, the calls of the runtime, and what the first function returned. -/
def Config.observed (c : Config V W) : W × List (Call V) × Option V := (c.world, c.log, c.status)

variable [Inhabited V]

/-- The runs of a module and of the instrumented one are in a simulation whose states are observed alike. -/
theorem exists_simulation (hlines : loadWrapFuncDefs lines = some wrapFuncNames)
    (hmap : collectSrcInfo modId M.toModule = some instIdMap) (hrun : runOnModule n lines modId M = some P')
    (hrelies : Relies m wrapFuncNames M.otherNames M.code) (hfunc : (M.code.lookup func).isSome) (args : List V)
    (w : W) : ∃ (R : Config V W → Config V W → Prop) (c' : Config V W),
      Respects (step (recorder m ⟨wrapFuncNames, modId, instIdMap, M.otherNames⟩) m M.code) (step silent m P') R ∧
      (∀ c d, R c d → d.observed = c.observed) ∧ Reaches (step silent m P') (start silent P' func args w) c' ∧
      R (start (recorder m ⟨wrapFuncNames, modId, instIdMap, M.otherNames⟩) M.code func args w) c' := by
  obtain ⟨N, N₁, P₁, f, hweaves, hswaps⟩ := exists_between hlines hmap hrun hrelies
  have hP₁ : ∀ a ∈ specials, P₁.lookup a = none := fun a ha => hweaves.lookup_eq_none.mpr (hrelies.runtime a ha).1
  have hagree₀ : Agree M.code N (Frame.call M.code func args 0 fun _ => []) (Frame.call P₁ func args 0 fun _ => []) :=
    ⟨rfl, rfl, rfl, rfl, rfl, fun _ _ => rfl, rfl, hfunc⟩
  -- `_before_main` is called, where the recorder is told that `main` is entered
  obtain ⟨F₁, hagree, hwoven, hreach⟩ := hweaves.reaches_entrance (m := m) hP₁ hagree₀ rfl hfunc rfl [] w [] none
  have hstart : Follows ⟨wrapFuncNames, modId, instIdMap, M.otherNames⟩ P₁.operands f N₁ (start silent P₁ func args w)
      (start silent P' func args w) :=
    .running ⟨rfl, rfl, rfl, rfl, fun _ _ => rfl, rfl, hswaps.block func 0⟩ .nil
  obtain ⟨c', hfollows, hreach'⟩ := tr_reaches hswaps.respects hstart hreach
  refine ⟨_, c', Simulation.respects_comp hweaves.respects hswaps.respects, ?_, hreach',
    ⟨_, .running hagree hwoven .nil, hfollows⟩⟩
  rintro _ _ ⟨_, hrel, hfol⟩
  cases hrel with
  | done =>
    cases hfol
    rfl
  | running _ _ _ =>
    cases hfol
    rfl

/-- **The meaning of a module.** A run of the instrumented module from a function of it, and one of the module itself
whose recorder is told what it does, are observed alike: they end in the same world with the same value, and the calls
of the runtime are those that the recorder is told of, in their order. -/
theorem runOnModule_alike (hlines : loadWrapFuncDefs lines = some wrapFuncNames)
    (hmap : collectSrcInfo modId M.toModule = some instIdMap) (hrun : runOnModule n lines modId M = some P')
    (hrelies : Relies m wrapFuncNames M.otherNames M.code) (hfunc : (M.code.lookup func).isSome) (args : List V)
    (w : W) :
    Simulation.Alike (step (recorder m ⟨wrapFuncNames, modId, instIdMap, M.otherNames⟩) m M.code) (step silent m P')
      Config.observed Config.observed
      (start (recorder m ⟨wrapFuncNames, modId, instIdMap, M.otherNames⟩) M.code func args w)
      (start silent P' func args w) := by
  obtain ⟨R, c', hrespects, hobs, hreach, hR⟩ := exists_simulation hlines hmap hrun hrelies hfunc args w
  exact .of_respects hrespects hobs hreach hR

/-- A `main` that reads what it has allocated, and returns it. -/
def mainAllocates : Program where
  functions := [⟨"main".toList,
    [[⟨0, .call (some "malloc".toList) [.int 8]⟩, ⟨1, .load (.inst 0) false⟩, ⟨2, .other⟩]]⟩]
  otherNames := []
  nodup := by decide
  operands p := if p = 2 then [.inst 1] else []
  closed := by
    have hinsts : insts [⟨"main".toList, [[⟨0, .call (some "malloc".toList) [.int 8]⟩, ⟨1, .load (.inst 0) false⟩,
      ⟨2, .other⟩]]⟩] = [⟨0, .call (some "malloc".toList) [.int 8]⟩, ⟨1, .load (.inst 0) false⟩, ⟨2, .other⟩] := rfl
    rw [hinsts]
    intro I hI p hp
    simp only [List.mem_cons, List.not_mem_nil, or_false] at hI
    obtain rfl | rfl | rfl := hI
    · simp [Op.operands] at hp
    · simp only [Op.operands] at hp
      obtain rfl := Operand.inst.inj (List.mem_singleton.mp hp)
      exact ⟨_, List.mem_cons_self, rfl⟩
    · simp only [Op.operands] at hp
      obtain rfl := Operand.inst.inj (List.mem_singleton.mp hp)
      exact ⟨_, List.mem_cons_of_mem _ List.mem_cons_self, rfl⟩
  operands_eq_nil p hp := by
    have hne : (⟨2, .other⟩ : Inst).ptr ≠ p := hp _ (by decide)
    exact if_neg hne.symm

/-- A meaning of its code: a function gives the sum of its arguments, a load its pointer, and the world counts them. -/
def sums : Meaning ℕ ℕ where
  int n := n.toNat
  value _ k := k
  run p _ vs w := (w + 1, some (vs.sum, if p = 2 then .ret else .fall))
  callee _ _ := none
  outside f vs w := (w + 1, some (if "_wrapper".toList <:+ f then vs.tail.sum else vs.sum))

theorem lookup_mainAllocates (h : "main".toList ≠ func) : mainAllocates.code.lookup func = none :=
  List.find?_eq_none.mpr fun G hG => by
    obtain rfl := List.mem_singleton.mp hG
    simpa using fun heq : "main".toList = func => absurd heq h

theorem relies_mainAllocates : Relies sums ("memcmp".toList :: fixedNames) [] mainAllocates.code where
  runtime a ha := by
    have hne : ∀ a ∈ specials, "main".toList ≠ a := by decide
    exact ⟨lookup_mainAllocates (hne a ha), List.not_mem_nil⟩
  wrapped f hf := by
    have hne : ∀ f ∈ "memcmp".toList :: fixedNames, "main".toList ≠ f ∧ f ∉ specials := by decide
    exact ⟨lookup_mainAllocates (hne f hf).1, (hne f hf).2⟩
  wrapper f hf := by
    have hne : ∀ f ∈ "memcmp".toList :: fixedNames, "main".toList ≠ wrapperName f := by decide
    exact ⟨lookup_mainAllocates (hne f hf), List.not_mem_nil⟩
  same f hf id vs w := by
    have hsuffix : ¬ "_wrapper".toList <:+ f := by
      revert f
      decide
    have hwrapper : "_wrapper".toList <:+ wrapperName f := List.suffix_append f _
    simp only [sums]
    rw [if_pos hwrapper, if_neg hsuffix]
    rfl

/-- Its calls of `malloc` and its load are recorded. -/
theorem runOnModule_alike_mainAllocates : ∃ P', runOnModule 20 ["int memcmp(int n)".toList] 0 mainAllocates = some P' ∧
    Simulation.Alike
      (step (recorder sums ⟨"memcmp".toList :: fixedNames, 0, [(0, 0), (1, 1), (2, 2)], []⟩) sums mainAllocates.code)
      (step silent sums P') Config.observed Config.observed
      (start (recorder sums ⟨"memcmp".toList :: fixedNames, 0, [(0, 0), (1, 1), (2, 2)], []⟩) mainAllocates.code
        "main".toList [] 0)
      (start silent P' "main".toList [] 0) := by
  obtain ⟨P', hP'⟩ := Option.isSome_iff_exists.mp
    (by decide : (runOnModule 20 ["int memcmp(int n)".toList] 0 mainAllocates).isSome)
  exact ⟨P', hP', runOnModule_alike (by decide) (by decide) hP' relies_mainAllocates (by decide) [] 0⟩

end Pass

end Instrument

end Schnauzer
