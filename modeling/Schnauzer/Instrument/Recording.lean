import Schnauzer.Instrument.Woven

/-!
# An instrumented module records what it does

The code that `Instrument::instrumentIR` leaves, run with no observer, does what the module does, and its log has what
the recorder is told of the run of the module: a run of the one is simulated by a run of the other. A step of the
module is one step of the code at least, with the calls of the runtime before it and those after the instruction that
it comes to.

## What is proved

* `Piece.reaches_before`, `Tells.reaches`, `Weaves.reaches_entrance` — the calls of the runtime, where they are made.
* `Weaves.outcome_eq` — an instruction does what it did.
* `Weaves.respects` — **the simulation**.
-/

namespace Schnauzer

namespace Instrument

open Scripts StateTransition Relation

variable {V W : Type*} [Inhabited V]

/-- The second code is that of the first after `instrumentIR`. -/
structure Weaves (env : Env) (N N₁ : ℕ) (P P' : Code) : Prop where
  operands : P'.operands = P.operands
  functions : List.Forall₂ (Laid env P.operands N N₁) P.functions P'.functions
  /-- No function of the module is one of the runtime. -/
  runtime : ∀ a ∈ specials, P.lookup a = none

/-- Two frames of one function that agree on the instructions of the module. -/
structure Agree (P : Code) (N : ℕ) (F F' : Frame V) : Prop where
  func : F'.func = F.func
  args : F'.args = F.args
  prev : F'.prev = F.prev
  block : F'.block = F.block
  dest : F'.dest = F.dest
  regs : ∀ p < N, F'.regs p = F.regs p
  told : F'.told = fun _ => []
  defined : (P.lookup F.func).isSome

/-- The calls after an instruction, in a frame, are what is told of its value. -/
def Tells (m : Meaning V W) (N : ℕ) (F : Frame V) (p : ℕ) (hooks : List Inst) (told : V → List (Call V)) : Prop :=
  (hooks = [] ∧ ∀ v, told v = []) ∨ ∃ q a args, hooks = [hook q a args] ∧ N ≤ q ∧ a ∈ specials ∧
    ∀ v, told v = [(a, args.map (m.eval (F.write p v)))]

/-- The frames below the top, for what it returns to and what is told then. -/
inductive Below (m : Meaning V W) (env : Env) (P : Code) (N N₁ : ℕ) :
    ℕ → (V → List (Call V)) → List (Frame V) → List (Frame V) → Prop
  | nil {p told} : Below m env P N N₁ p told [] []
  | cons {p told F F' stack stack' after B'} : Agree P N F F' → F'.rest = after ++ B' →
    Woven env P.operands N N₁ F.rest B' → Tells m N F' p after told → Below m env P N N₁ F.dest F.told stack stack' →
    Below m env P N N₁ p told (F :: stack) (F' :: stack')

/-- A run of the module and one of the code that it was made into. -/
inductive Related (m : Meaning V W) (env : Env) (P : Code) (N N₁ : ℕ) : Config V W → Config V W → Prop
  | done {w log status} : Related m env P N N₁ ⟨[], w, log, status⟩ ⟨[], w, log, status⟩
  | running {F F' stack stack' w log status} : Agree P N F F' → Woven env P.operands N N₁ F.rest F'.rest →
    Below m env P N N₁ F.dest F.told stack stack' →
    Related m env P N N₁ ⟨F :: stack, w, log, status⟩ ⟨F' :: stack', w, log, status⟩

variable {m : Meaning V W} {env : Env} {P P' : Code} {N N₁ : ℕ} {F F' : Frame V} {stack stack' : List (Frame V)}
  {I : Inst} {B B' before after hooks : List Inst} {w : W} {log : List (Call V)} {status : Option V} {p q b : ℕ} {v : V}
  {told : V → List (Call V)} {func : Str}

/-! ### Frames that agree -/

omit [Inhabited V]

theorem Agree.left (h : Agree P N F F') : Agree P N { F with rest := B } F' :=
  ⟨h.func, h.args, h.prev, h.block, h.dest, h.regs, h.told, h.defined⟩

theorem Agree.right (h : Agree P N F F') : Agree P N F { F' with rest := B } :=
  ⟨h.func, h.args, h.prev, h.block, h.dest, h.regs, h.told, h.defined⟩

theorem Agree.write (h : Agree P N F F') (p : ℕ) (v : V) : Agree P N (F.write p v) (F'.write p v) :=
  ⟨h.func, h.args, h.prev, h.block, h.dest, fun q hq => by
    by_cases hqp : q = p
    · rw [hqp, Frame.write_regs_self, Frame.write_regs_self]
    · rw [Frame.write_regs_of_ne hqp, Frame.write_regs_of_ne hqp, h.regs q hq], h.told, h.defined⟩

/-- A new instruction has a value of its own. -/
theorem Agree.write_right (h : Agree P N F F') (hp : N ≤ p) (v : V) : Agree P N F (F'.write p v) :=
  ⟨h.func, h.args, h.prev, h.block, h.dest, fun q hq => by
    rw [Frame.write_regs_of_ne (hq.trans_le hp).ne, h.regs q hq], h.told, h.defined⟩

theorem Agree.eval (h : Agree P N F F') {x : Operand} (hx : ∀ p, x = .inst p → p < N) : m.eval F' x = m.eval F x := by
  cases x with
  | inst p => exact h.regs p (hx p rfl)
  | int n => rfl
  | value k => exact congrArg (m.value · k) h.args

theorem Agree.map_eval (h : Agree P N F F') (xs : List Operand) (hxs : ∀ p, .inst p ∈ xs → p < N) :
    xs.map (m.eval F') = xs.map (m.eval F) :=
  List.map_congr_left fun _ hx => h.eval fun p heq => hxs p (heq ▸ hx)

theorem Agree.map_operands (h : Agree P N F F') (hI : Low P.operands N I) :
    I.op.operands.map (m.eval F') = I.op.operands.map (m.eval F) :=
  h.map_eval _ fun p hp => hI.operands p (List.mem_append_left _ hp)

/-! ### The functions -/

theorem Laid.matches_iff {G G' : Function} {operands : ℕ → List Operand} (h : Laid env operands N N₁ G G') :
    (G'.name = func ∧ G'.blocks ≠ []) ↔ (G.name = func ∧ G.blocks ≠ []) := by
  rw [h.name, ← List.length_pos_iff, ← List.length_pos_iff, h.length]

/-- The first of two lists that satisfies what the other's does. -/
theorem find?_forall₂ {α β : Type*} {R : α → β → Prop} {f : α → Bool} {g : β → Bool} {l : List α} {l' : List β}
    (h : List.Forall₂ R l l') (hfg : ∀ x y, R x y → g y = f x) :
    (l.find? f = none ∧ l'.find? g = none) ∨ ∃ x y, l.find? f = some x ∧ l'.find? g = some y ∧ R x y := by
  induction h with
  | nil => exact Or.inl ⟨rfl, rfl⟩
  | @cons x y l l' hxy _ ih =>
    cases hx : f x with
    | true => exact Or.inr ⟨x, y, List.find?_cons_of_pos hx, List.find?_cons_of_pos ((hfg x y hxy).trans hx), hxy⟩
    | false =>
      have hfind : (x :: l).find? f = l.find? f := List.find?_cons_of_neg (ne_true_of_eq_false hx)
      have hfind' : (y :: l').find? g = l'.find? g :=
        List.find?_cons_of_neg (ne_true_of_eq_false ((hfg x y hxy).trans hx))
      rw [hfind, hfind']
      exact ih

/-- The function of a name in both. -/
theorem Weaves.lookup (h : Weaves env N N₁ P P') (func : Str) :
    (P.lookup func = none ∧ P'.lookup func = none) ∨
      ∃ G G', P.lookup func = some G ∧ P'.lookup func = some G' ∧ Laid env P.operands N N₁ G G' :=
  find?_forall₂ h.functions fun _ _ hlaid => decide_eq_decide.mpr hlaid.matches_iff

theorem Weaves.lookup_eq_none (h : Weaves env N N₁ P P') : P'.lookup func = none ↔ P.lookup func = none := by
  obtain ⟨h₁, h₂⟩ | ⟨G, G', h₁, h₂, -⟩ := h.lookup func
  · rw [h₁, h₂]
  · rw [h₁, h₂]
    exact ⟨fun h => (Option.some_ne_none _ h).elim, fun h => (Option.some_ne_none _ h).elim⟩

/-- The blocks of a function in both. -/
theorem Weaves.block (h : Weaves env N N₁ P P') (hfunc : (P.lookup func).isSome) (b : ℕ) :
    ∃ hooks B', P'.block func b = hooks ++ B' ∧ Entrance N N₁ func b hooks ∧
      Woven env P.operands N N₁ (P.block func b) B' := by
  obtain ⟨h₁, -⟩ | ⟨G, G', h₁, h₂, hlaid⟩ := h.lookup func
  · rw [h₁] at hfunc
    cases hfunc
  have hG : G.name = func ∧ G.blocks ≠ [] := by simpa using List.find?_some h₁
  unfold Code.block
  rw [h₁, h₂, Option.bind_some, Option.bind_some]
  cases hB : G.blocks[b]? with
  | some B =>
    obtain ⟨hooks, B', hB', hentrance, hwoven⟩ := hlaid.block b B hB
    rw [hB']
    exact ⟨hooks, B', rfl, hG.1 ▸ hentrance, hwoven⟩
  | none =>
    have hlength : G.blocks.length ≤ b := List.getElem?_eq_none_iff.mp hB
    rw [List.getElem?_eq_none (hlaid.length.trans_le hlength)]
    refine ⟨[], [], rfl, (if_neg ?_).mpr rfl, .nil⟩
    rintro ⟨-, rfl⟩
    exact hG.2 (List.length_eq_zero_iff.mp (Nat.le_zero.mp hlength))

/-! ### What the recorder is told -/

theorem recorder_before_none {vs : List V} (h : beforeName env.wrapFuncNames I.op = none) :
    (recorder m env).before I vs = [] := by
  simp only [recorder, h]

theorem recorder_after_none {vs : List V} (h : afterName env.wrapFuncNames I.op = none) :
    (recorder m env).after I vs v = [] := by
  simp only [recorder, h]

variable {pointer : Operand} {isVolatile : Bool} {a : Str} {args : List Operand} {id : UInt64} {vs : List V}

theorem recorder_before_access (hop : I.op = .load pointer isVolatile ∨ I.op = .store pointer isVolatile)
    (ha : beforeName env.wrapFuncNames I.op = some a) (hid : getInstId env I = .ok id) :
    (recorder m env).before I vs = [(a, m.int id :: vs)] := by
  simp only [recorder, ha, hid]
  obtain hop | hop := hop <;> rw [hop]

theorem recorder_after_access (hop : I.op = .load pointer isVolatile ∨ I.op = .store pointer isVolatile)
    (ha : afterName env.wrapFuncNames I.op = some a) (hid : getInstId env I = .ok id) :
    (recorder m env).after I vs v = [(a, m.int id :: vs)] := by
  simp only [recorder, ha, hid]
  obtain hop | hop := hop <;> rw [hop]

theorem recorder_before_call (hop : I.op = .call (some func) args)
    (ha : beforeName env.wrapFuncNames I.op = some a) (hid : getInstId env I = .ok id) :
    (recorder m env).before I vs = [(a, [m.int id])] := by
  rw [hop] at ha
  simp only [recorder, hop, ha, hid]

theorem recorder_after_call (hop : I.op = .call (some func) args)
    (ha : afterName env.wrapFuncNames I.op = some a) (hid : getInstId env I = .ok id) :
    (recorder m env).after I vs v = [(a, if func = "fork".toList then [m.int id, v] else [m.int id])] := by
  rw [hop] at ha
  simp only [recorder, hop, ha, hid, Option.some.injEq]

theorem operands_of_access (hop : I.op = .load pointer isVolatile ∨ I.op = .store pointer isVolatile) :
    I.op.operands = [pointer] := by
  obtain hop | hop := hop <;> rw [hop] <;> rfl

variable [Inhabited V]

/-! ### The calls of the runtime -/

/-- **Before an instruction**: the calls are what the recorder is told. -/
theorem Piece.reaches_before (hpiece : Piece env N N₁ I before after) (hP : ∀ a ∈ specials, P'.lookup a = none)
    (hI : Low P.operands N I) (hagree : Agree P N F F') (hrest : F'.rest = before ++ B') (stack' : List (Frame V))
    (w : W) (log : List (Call V)) (status : Option V) : ∃ F₁ : Frame V, F₁.rest = B' ∧ Agree P N F F₁ ∧
      Tells m N F₁ I.ptr after ((recorder m env).after I (I.op.operands.map (m.eval F))) ∧
      Reaches (step silent m P') ⟨F' :: stack', w, log, status⟩
        ⟨F₁ :: stack', w, log ++ (recorder m env).before I (I.op.operands.map (m.eval F)), status⟩ := by
  cases hpiece with
  | plain hb ha =>
    refine ⟨F', hrest, hagree, Or.inl ⟨rfl, fun v => recorder_after_none ha⟩, ?_⟩
    rw [recorder_before_none hb, List.append_nil]
    exact ReflTransGen.refl
  | @access pointer isVolatile b a id c p q hop hb ha hid hc hcp hpq hq =>
    have hvs : I.op.operands.map (m.eval F) = [m.eval F pointer] := by rw [operands_of_access hop]; rfl
    have hpointer : m.eval F' pointer = m.eval F pointer :=
      List.singleton_injective ((by rw [operands_of_access hop]; rfl : [m.eval F' pointer] = _).trans
        ((hagree.map_operands hI).trans hvs))
    have hptr : c ≠ I.ptr := (hI.ptr.trans_le hc).ne'
    -- the cast, then the call, in which the cast has the value of the pointer
    let F₁ := ({ F' with rest := hook p b [.int id, .inst c] :: B' } : Frame V).write c (m.eval F' pointer)
    let F₂ := ({ F₁ with rest := B' } : Frame V).write p default
    have hcast : F₁.regs c = m.eval F pointer := Frame.write_regs_self.trans hpointer
    have hargs : [Operand.int id, .inst c].map (m.eval F₁) = m.int id :: [m.eval F pointer] := by rw [← hcast]; rfl
    refine ⟨F₂, rfl, ?_, Or.inr ⟨q, a, _, rfl, by omega,
      mem_specials_of_isInserted (isInserted_of_afterName ha), ?_⟩, ?_⟩
    · exact (hagree.right.write_right hc _).right.write_right (hc.trans hcp.le) _
    · intro v
      have hafter : (F₂.write I.ptr v).regs c = m.eval F pointer := by
        rw [Frame.write_regs_of_ne hptr, Frame.write_regs_of_ne hcp.ne]
        exact hcast
      rw [recorder_after_access hop ha hid, hvs, ← hafter]
      rfl
    · rw [recorder_before_access hop hb hid, hvs, ← hargs]
      exact (reaches_bitCast hrest).to_reflTransGen.trans
        (reaches_hook (mem_specials_of_beforeName hb) (hP _ (mem_specials_of_beforeName hb)) rfl).to_reflTransGen
  | @fork args a id q hop hb ha hid hq =>
    refine ⟨F', hrest, hagree, Or.inr ⟨q, a, _, rfl, hq,
      mem_specials_of_isInserted (isInserted_of_afterName ha), ?_⟩, ?_⟩
    · intro v
      have hafter : (F'.write I.ptr v).regs I.ptr = v := Frame.write_regs_self
      rw [recorder_after_call hop ha hid, if_pos rfl]
      conv_lhs => rw [← hafter]
      rfl
    · rw [recorder_before_none hb, List.append_nil]
      exact ReflTransGen.refl
  | @call func args b a id p q hop hfork hb ha hid hp hpq hq =>
    let F₁ := ({ F' with rest := B' } : Frame V).write p default
    refine ⟨F₁, rfl, hagree.right.write_right hp _, Or.inr ⟨q, a, _, rfl, by omega,
      mem_specials_of_isInserted (isInserted_of_afterName ha), ?_⟩, ?_⟩
    · intro v
      rw [recorder_after_call hop ha hid, if_neg hfork]
      rfl
    · rw [recorder_before_call hop hb hid]
      exact (reaches_hook (mem_specials_of_beforeName hb) (hP _ (mem_specials_of_beforeName hb)) hrest).to_reflTransGen

/-- **After an instruction** that gave a value. -/
theorem Tells.reaches (h : Tells m N F' p hooks told) (hP : ∀ a ∈ specials, P'.lookup a = none)
    (hagree : Agree P N F F') (hrest : F'.rest = hooks ++ B') (v : V) (stack' : List (Frame V)) (w : W)
    (log : List (Call V)) (status : Option V) : ∃ F₁ : Frame V, F₁.rest = B' ∧ Agree P N (F.write p v) F₁ ∧
      Reaches (step silent m P') ⟨F'.write p v :: stack', w, log, status⟩
        ⟨F₁ :: stack', w, log ++ told v, status⟩ := by
  obtain ⟨rfl, htold⟩ | ⟨q, a, args, rfl, hq, ha, htold⟩ := h
  · refine ⟨F'.write p v, hrest, hagree.write p v, ?_⟩
    rw [htold, List.append_nil]
    exact ReflTransGen.refl
  · refine ⟨({ F'.write p v with rest := B' } : Frame V).write q default, rfl,
      (hagree.write p v).right.write_right hq _, ?_⟩
    rw [htold]
    exact (reaches_hook (F := F'.write p v) ha (hP a ha) hrest).to_reflTransGen

/-- **At the beginning of a block**. -/
theorem Weaves.reaches_entrance (h : Weaves env N N₁ P P') (hP : ∀ a ∈ specials, P'.lookup a = none)
    (hagree : Agree P N F F') (hF : F.rest = P.block func b) (hfunc : (P.lookup func).isSome)
    (hF' : F'.rest = P'.block func b) (stack' : List (Frame V)) (w : W) (log : List (Call V)) (status : Option V) :
    ∃ F₁ : Frame V, Agree P N F F₁ ∧ Woven env P.operands N N₁ F.rest F₁.rest ∧
      Reaches (step silent m P') ⟨F' :: stack', w, log, status⟩
        ⟨F₁ :: stack', w, log ++ (recorder m env).enter func b, status⟩ := by
  obtain ⟨hooks, B', hblock, hentrance, hwoven⟩ := h.block hfunc b
  rw [← hF] at hwoven
  rw [hblock] at hF'
  unfold Entrance at hentrance
  simp only [recorder]
  split_ifs at hentrance ⊢ with hmain
  · obtain ⟨q, rfl, hq, -⟩ := hentrance
    refine ⟨({ F' with rest := B' } : Frame V).write q default, hagree.right.write_right hq _, hwoven, ?_⟩
    exact (reaches_hook (by decide) (hP _ (by decide)) hF').to_reflTransGen
  · subst hentrance
    rw [List.append_nil]
    exact ⟨F', hagree, (show F'.rest = B' from hF') ▸ hwoven, ReflTransGen.refl⟩

/-! ### The instructions -/

theorem Weaves.call_eq (h : Weaves env N N₁ P P') (func : Str) (vs : List V) (w : W) :
    m.call P' func vs w = m.call P func vs w := by
  rw [Meaning.call, Meaning.call]
  cases hP : P.lookup func with
  | none => rw [h.lookup_eq_none.mpr hP]
  | some _ =>
    cases hP' : P'.lookup func with
    | none => cases (h.lookup_eq_none.mp hP').symm.trans hP
    | some _ => rfl

omit [Inhabited V] in
theorem Weaves.exec_eq (h : Weaves env N N₁ P P') (hI : Low P.operands N I) (hagree : Agree P N F F') :
    m.exec P' F' ⟨I.ptr, I.op.setVolatile⟩ w = m.exec P F I w := by
  have hoperands : P'.allOperands ⟨I.ptr, I.op.setVolatile⟩ = P.allOperands I := by
    rw [Code.allOperands, Code.allOperands, h.operands]
    exact congrArg (· ++ _) (by cases I.op <;> rfl)
  rw [Meaning.exec, Meaning.exec, hoperands, hagree.map_eval (P.allOperands I) hI.operands, hagree.prev]

/-- **An instruction does what it did.** -/
theorem Weaves.outcome_eq (h : Weaves env N N₁ P P') (hI : Low P.operands N I) (hagree : Agree P N F F') :
    m.outcome P' F' ⟨I.ptr, I.op.setVolatile⟩ w = m.outcome P F I w := by
  have hargs := hagree.map_operands (m := m) hI
  have hexec := h.exec_eq (m := m) (w := w) hI hagree
  have hall := hagree.map_eval (m := m) (P.allOperands I) hI.operands
  obtain ⟨ptr, op⟩ := I
  cases op with
  | load pointer isVolatile => exact hexec
  | store pointer isVolatile => exact hexec
  | call func args =>
    replace hargs : args.map (m.eval F') = args.map (m.eval F) := hargs
    cases func with
    | none =>
      have hoperands : P'.allOperands ⟨ptr, .call none args⟩ = P.allOperands ⟨ptr, .call none args⟩ := by
        rw [Code.allOperands, Code.allOperands, h.operands]
      rw [Op.setVolatile, Meaning.outcome, Meaning.outcome]
      dsimp only
      rw [hoperands, hall]
      cases m.callee ptr ((P.allOperands ⟨ptr, .call none args⟩).map (m.eval F)) with
      | some func =>
        dsimp only
        rw [hargs, h.call_eq]
      | none => exact hexec
    | some func =>
      rw [outcome_call (I := ⟨ptr, .call (some func) args⟩) rfl, Op.setVolatile,
        outcome_call (I := ⟨ptr, .call (some func) args⟩) rfl, hargs, h.call_eq]
  | bitCast pointer =>
    have hpointer : m.eval F' pointer = m.eval F pointer := List.singleton_injective hargs
    rw [Op.setVolatile, Meaning.outcome, Meaning.outcome]
    dsimp only
    rw [hpointer]
  | other => exact hexec

/-- Only a function of the module is entered. -/
theorem isSome_of_outcome {args : List V} (h : m.outcome P F I w = .enter func args) : (P.lookup func).isSome := by
  have hcall : ∀ f vs, m.call P f vs w = .enter func args → (P.lookup func).isSome := by
    intro f vs hf
    rw [Meaning.call] at hf
    cases hP : P.lookup f with
    | some G =>
      rw [hP] at hf
      obtain ⟨rfl, -⟩ := Outcome.enter.inj hf
      rw [hP]
      rfl
    | none =>
      rw [hP] at hf
      dsimp only at hf
      split_ifs at hf
      split at hf <;> cases hf
  have hexec : m.exec P F I w ≠ .enter func args := by
    intro hf
    rw [Meaning.exec] at hf
    split at hf <;> cases hf
  rw [Meaning.outcome] at h
  split at h
  · cases h
  · exact hcall _ _ h
  · split at h
    · exact hcall _ _ h
    · exact absurd h hexec
  all_goals exact absurd h hexec

/-! ### The simulation -/

/-- What follows from the outcome of an instruction, in both. -/
theorem Weaves.reaches_proceed (h : Weaves env N N₁ P P') (F F' : Frame V) (hagree : Agree P N F F')
    (hF : Woven env P.operands N N₁ F.rest B') (hrest : F'.rest = after ++ B')
    (htells : Tells m N F' I.ptr after ((recorder m env).after I vs))
    (hbelow : Below m env P N N₁ F.dest F.told stack stack') (out : Outcome V W)
    (hout : ∀ func args, out = .enter func args → (P.lookup func).isSome) {s s' : List (Frame V)} (I' : Inst)
    (hptr : I'.ptr = I.ptr) {vs' : List V} : ∃ c' : Config V W,
      Related m env P N N₁ (proceed (recorder m env) P I vs F stack ⟨s, w, log, status⟩ out) c' ∧
      Reaches (step silent m P') (proceed silent P' I' vs' F' stack' ⟨s', w, log, status⟩ out) c' := by
  have hP : ∀ a ∈ specials, P'.lookup a = none := fun a ha => h.lookup_eq_none.mpr (h.runtime a ha)
  cases out with
  | stop w => exact ⟨_, .done, ReflTransGen.refl⟩
  | fall v w calls =>
    obtain ⟨F₁, hrest₁, hagree₁, hreach⟩ := htells.reaches hP hagree hrest v stack' w (log ++ calls) status
    refine ⟨⟨F₁ :: stack', w, log ++ calls ++ _, status⟩, .running hagree₁ (hrest₁ ▸ hF) hbelow, ?_⟩
    rw [proceed, hptr, silent, List.append_nil]
    exact hreach
  | jump b w =>
    have hagreeJ : Agree P N (F.jump P b) (F'.jump P' b) :=
      ⟨hagree.func, hagree.args, hagree.block, rfl, hagree.dest, hagree.regs, hagree.told, hagree.defined⟩
    obtain ⟨F₁, hagree₁, hwoven, hreach⟩ := h.reaches_entrance (m := m) hP hagreeJ rfl hagree.defined
      (congrArg (P'.block · b) hagree.func) stack' w log status
    refine ⟨⟨F₁ :: stack', w, _, status⟩, .running hagree₁ hwoven (hagreeJ.dest ▸ hbelow), ?_⟩
    rw [proceed, silent, List.append_nil]
    exact hreach
  | ret v w =>
    cases hbelow with
    | nil => exact ⟨_, .done, ReflTransGen.refl⟩
    | @cons _ _ G G' stack stack' after B' hagreeG hrestG hwovenG htellsG hbelow =>
      obtain ⟨G₁, hrest₁, hagree₁, hreach⟩ := htellsG.reaches hP hagreeG hrestG v stack' w log status
      refine ⟨⟨G₁ :: stack', w, _, status⟩, .running hagree₁ (hrest₁ ▸ hwovenG) hbelow, ?_⟩
      rw [proceed]
      dsimp only
      rw [hagree.dest, hagree.told, List.append_nil]
      exact hreach
  | enter func args =>
    have hfunc := hout func args rfl
    have hagreeC : Agree P N (Frame.call P func args I.ptr ((recorder m env).after I vs))
        (Frame.call P' func args I.ptr (silent.after I' vs')) := ⟨rfl, rfl, rfl, rfl, rfl, fun _ _ => rfl, rfl, hfunc⟩
    obtain ⟨F₁, hagree₁, hwoven, hreach⟩ := h.reaches_entrance (m := m) hP hagreeC rfl hfunc rfl (F' :: stack') w log
      status
    refine ⟨⟨F₁ :: F' :: stack', w, _, status⟩, .running hagree₁ hwoven (.cons hagree hrest hF htells hbelow), ?_⟩
    rw [proceed, hptr]
    have hlog : log ++ (silent : Observer V).enter func 0 = log := List.append_nil log
    rw [hlog]
    exact hreach

/-- **The simulation.** -/
theorem Weaves.respects (h : Weaves env N N₁ P P') :
    Respects (step (recorder m env) m P) (step silent m P') (Related m env P N N₁) := by
  intro c c' hrel
  have hP : ∀ a ∈ specials, P'.lookup a = none := fun a ha => h.lookup_eq_none.mpr (h.runtime a ha)
  cases hrel with
  | done => rfl
  | @running F F' stack stack' w log status hagree hwoven hbelow =>
    generalize hB' : F'.rest = R at hwoven
    generalize hB : F.rest = B at hwoven
    cases hwoven with
    | nil =>
      rw [step_of_nil hB]
      exact ⟨_, .done, TransGen.single (Option.mem_def.mpr (step_of_nil hB'))⟩
    | @cons I before after B B' hI hpiece hwoven =>
      obtain ⟨F₁, hrest₁, hagree₁, htells, hbefore⟩ :=
        hpiece.reaches_before (m := m) hP hI hagree hB' stack' w log status
      obtain ⟨c', hrel, hreach⟩ := h.reaches_proceed { F with rest := B } { F₁ with rest := after ++ B' }
        hagree₁.left.right hwoven rfl htells hbelow (m.outcome P F I w) (fun _ _ => isSome_of_outcome)
        ⟨I.ptr, I.op.setVolatile⟩ rfl
      rw [step_of_rest hB]
      refine ⟨c', hrel, TransGen.trans_right hbefore (TransGen.head' ?_ hreach)⟩
      rw [step_of_rest hrest₁, h.outcome_eq hI hagree₁, silent, List.append_nil]
      rfl

end Instrument

end Schnauzer
