import Schnauzer.Instrument.Meaning
import Schnauzer.Lib.CausalHistory

/-!
# The code of an instrumented module

What `Instrument::instrumentIR` makes of the blocks: the calls of the runtime are woven between the instructions of the
module.

## What is proved

* `piece_of_visit` — what stands for one instruction.
* `woven_of_instrBlock` — what stands for a block.
* `laid_of_instrumentIR` — the functions of the module: their blocks are woven, and `main` begins with the call of
  `_before_main`.
-/

namespace Schnauzer

namespace Instrument

open Scripts

variable {env : Env} {N N₁ N₂ : ℕ} {I : Inst} {B B' before after : List Inst} {st st' : St} {n : ℕ} {F F' : Function}

/-! ### One instruction -/

/-- `setVolatile(true)`, of an access. -/
def Op.setVolatile : Op → Op
  | .load pointer _ => .load pointer true
  | .store pointer _ => .store pointer true
  | .call func args => .call func args
  | .bitCast pointer => .bitCast pointer
  | .other => .other

/-- A call of a function of the runtime. -/
abbrev hook (p : ℕ) (a : Str) (args : List Operand) : Inst := ⟨p, .call (some a) args⟩

/-- What is before and after an instruction of the module. The addresses of the new instructions are from `N` on,
below `N₁`. -/
inductive Piece (env : Env) (N N₁ : ℕ) (I : Inst) : List Inst → List Inst → Prop
  | plain : beforeName env.wrapFuncNames I.op = none → afterName env.wrapFuncNames I.op = none → Piece env N N₁ I [] []
  | access {pointer : Operand} {isVolatile : Bool} {b a : Str} {id : UInt64} {c p q : ℕ} :
    I.op = .load pointer isVolatile ∨ I.op = .store pointer isVolatile →
    beforeName env.wrapFuncNames I.op = some b → afterName env.wrapFuncNames I.op = some a →
    getInstId env I = .ok id → N ≤ c → c < p → p < q → q < N₁ →
    Piece env N N₁ I [⟨c, .bitCast pointer⟩, hook p b [.int id, .inst c]] [hook q a [.int id, .inst c]]
  | fork {args : List Operand} {a : Str} {id : UInt64} {q : ℕ} :
    I.op = .call (some "fork".toList) args → beforeName env.wrapFuncNames I.op = none →
    afterName env.wrapFuncNames I.op = some a → getInstId env I = .ok id → N ≤ q → q < N₁ →
    Piece env N N₁ I [] [hook q a [.int id, .inst I.ptr]]
  | call {func : Str} {args : List Operand} {b a : Str} {id : UInt64} {p q : ℕ} :
    I.op = .call (some func) args → func ≠ "fork".toList → beforeName env.wrapFuncNames I.op = some b →
    afterName env.wrapFuncNames I.op = some a → getInstId env I = .ok id → N ≤ p → p < q → q < N₁ →
    Piece env N N₁ I [hook p b [.int id]] [hook q a [.int id]]

theorem Piece.mono (h : Piece env N N₁ I before after) (hle : N₁ ≤ N₂) : Piece env N N₂ I before after := by
  cases h with
  | plain hb ha => exact .plain hb ha
  | access hop hb ha hid hc hcp hpq hq => exact .access hop hb ha hid hc hcp hpq (hq.trans_le hle)
  | fork hop hb ha hid hp hq => exact .fork hop hb ha hid hp (hq.trans_le hle)
  | call hop hf hb ha hid hp hpq hq => exact .call hop hf hb ha hid hp hpq (hq.trans_le hle)

/-- What is called before an instruction is a function of the runtime. -/
theorem mem_specials_of_beforeName {W : List Str} {op : Op} {a : Str} (h : beforeName W op = some a) :
    a ∈ specials := by
  unfold beforeName at h
  split at h
  · cases h
    decide
  · cases h
    decide
  · split_ifs at h
    cases h
    decide
  · cases h

/-- Before a call, only `_before_func_call` is called. -/
theorem beforeName_of_ne {W : List Str} {func : Option Str} {args : List Operand}
    (h : afterName W (.call func args) ≠ some "_after_func_call".toList) : beforeName W (.call func args) = none :=
  if_neg h

theorem isInserted_of_afterName {W : List Str} {op : Op} {a : Str} (h : afterName W op = some a) : IsInserted a := by
  unfold afterName at h
  split at h
  · cases h
    decide
  · cases h
    decide
  · split_ifs at h
    · cases h
      decide
    · cases h
      decide
  · cases h

theorem mem_specials_of_isInserted {a : Str} (h : IsInserted a) : a ∈ specials := by
  revert a
  unfold IsInserted
  decide

theorem createCall_of_not_mem {name : Str} (h : name ∉ env.otherNames) (args : List Operand) (st : St) :
    createCall env name args st = (hook st.next name args, { st with next := st.next + 1 }) := by
  rw [createCall, if_neg h]
  rfl

/-- What `instrAccess` makes. -/
theorem instrAccess_eq {b a : Str} {pointer : Operand} {I' : Inst} {v : Visit} (hb : b ∉ env.otherNames)
    (ha : a ∉ env.otherNames) (h : instrAccess env b a pointer I I' st = .ok (v, st')) :
    ∃ id, getInstId env I = .ok id ∧ st'.next = st.next + 3 ∧
      v = ⟨[⟨st.next, .bitCast pointer⟩, hook (st.next + 1) b [.int id, .inst st.next]], I',
        [hook (st.next + 2) a [.int id, .inst st.next]]⟩ := by
  obtain ⟨id, hid, h⟩ := bind_eq_ok.mp h
  rw [createCall_of_not_mem hb] at h
  dsimp only at h
  rw [createCall_of_not_mem ha] at h
  obtain ⟨rfl, rfl⟩ := h
  exact ⟨id, hid, rfl, rfl⟩

/-- **What the loop makes of an instruction.** -/
theorem piece_of_visit {v : Visit} (hN : N ≤ st.next) (hother : ∀ a ∈ specials, a ∉ env.otherNames)
    (h : visit env I st = .ok (v, st')) :
    v.inst = ⟨I.ptr, I.op.setVolatile⟩ ∧ Piece env N st'.next I v.before v.after ∧ st.next ≤ st'.next := by
  obtain ⟨ptr, op⟩ := I
  cases op with
  | load pointer isVolatile =>
    obtain ⟨id, hid, hnext, rfl⟩ := instrAccess_eq (hother _ (by decide)) (hother _ (by decide)) h
    refine ⟨rfl, ?_, by rw [hnext]; exact Nat.le_add_right _ 3⟩
    exact .access (.inl (Eq.refl (Op.load pointer isVolatile))) rfl rfl hid hN (Nat.lt_succ_self _)
      (Nat.lt_succ_self _) (by rw [hnext]; exact Nat.lt_succ_self _)
  | store pointer isVolatile =>
    obtain ⟨id, hid, hnext, rfl⟩ := instrAccess_eq (hother _ (by decide)) (hother _ (by decide)) h
    refine ⟨rfl, ?_, by rw [hnext]; exact Nat.le_add_right _ 3⟩
    exact .access (.inr (Eq.refl (Op.store pointer isVolatile))) rfl rfl hid hN (Nat.lt_succ_self _)
      (Nat.lt_succ_self _) (by rw [hnext]; exact Nat.lt_succ_self _)
  | call func args =>
    cases func with
    | none =>
      obtain ⟨rfl, rfl⟩ := h
      exact ⟨rfl, .plain (beforeName_of_ne (by rintro ⟨⟩)) rfl, le_rfl⟩
    | some funcName =>
      have hvisit : instrCall env ⟨ptr, .call (some funcName) args⟩ (some funcName) st = .ok (v, st') := h
      rw [instrCall.eq_def] at hvisit
      dsimp only at hvisit
      split_ifs at hvisit with hspecial hpthread hfork
      · obtain ⟨rfl, rfl⟩ := hvisit
        have ha : afterName env.wrapFuncNames (.call (some funcName) args) = none := if_pos hspecial
        exact ⟨rfl, .plain (beforeName_of_ne (by rw [ha]; rintro ⟨⟩)) ha, le_rfl⟩
      · obtain ⟨rfl, rfl⟩ := hvisit
        have ha : afterName env.wrapFuncNames (.call (some funcName) args) = none :=
          (if_neg hspecial).trans (if_pos hpthread)
        exact ⟨rfl, .plain (beforeName_of_ne (by rw [ha]; rintro ⟨⟩)) ha, le_rfl⟩
      · obtain ⟨id, hid, hvisit⟩ := bind_eq_ok.mp hvisit
        rw [createCall_of_not_mem (hother _ (by decide))] at hvisit
        obtain ⟨rfl, rfl⟩ := hvisit
        have ha : afterName env.wrapFuncNames (.call (some funcName) args) = some "_after_fork".toList := by
          rw [afterName, if_neg hspecial, if_neg hpthread, if_pos hfork]
        have hb : beforeName env.wrapFuncNames (.call (some funcName) args) = none :=
          beforeName_of_ne (by rw [ha]; decide)
        subst hfork
        exact ⟨rfl, .fork rfl hb ha hid hN (Nat.lt_succ_self _), Nat.le_succ _⟩
      · obtain ⟨id, hid, hvisit⟩ := bind_eq_ok.mp hvisit
        rw [createCall_of_not_mem (hother _ (by decide))] at hvisit
        dsimp only at hvisit
        rw [createCall_of_not_mem (hother _ (by decide))] at hvisit
        obtain ⟨rfl, rfl⟩ := hvisit
        have ha : afterName env.wrapFuncNames (.call (some funcName) args) = some "_after_func_call".toList := by
          rw [afterName, if_neg hspecial, if_neg hpthread, if_neg hfork]
        have hb : beforeName env.wrapFuncNames (.call (some funcName) args) = some "_before_func_call".toList :=
          if_pos ha
        exact ⟨rfl, .call rfl hfork hb ha hid hN (Nat.lt_succ_self _) (Nat.lt_succ_self _), Nat.le_add_right _ 2⟩
  | bitCast pointer =>
    obtain ⟨rfl, rfl⟩ := h
    exact ⟨rfl, .plain rfl rfl, le_rfl⟩
  | other =>
    obtain ⟨rfl, rfl⟩ := h
    exact ⟨rfl, .plain rfl rfl, le_rfl⟩

/-! ### Blocks -/

/-- An instruction with an address below `N`, as those of its operands are. -/
structure Low (operands : ℕ → List Operand) (N : ℕ) (I : Inst) : Prop where
  ptr : I.ptr < N
  operands : ∀ p, .inst p ∈ I.op.operands ++ operands I.ptr → p < N

/-- A block, with what stands for its instructions. -/
inductive Woven (env : Env) (operands : ℕ → List Operand) (N N₁ : ℕ) : List Inst → List Inst → Prop
  | nil : Woven env operands N N₁ [] []
  | cons {I : Inst} {before after B B' : List Inst} :
    Low operands N I → Piece env N N₁ I before after → Woven env operands N N₁ B B' →
    Woven env operands N N₁ (I :: B) (before ++ ⟨I.ptr, I.op.setVolatile⟩ :: (after ++ B'))

/-- The block that the loop leaves. -/
def blockOf (vs : List Visit) : List Inst := vs.flatMap fun v => v.before ++ [v.inst]

variable {operands : ℕ → List Operand} {vs : List Visit}

theorem Woven.mono (h : Woven env operands N N₁ B B') (hle : N₁ ≤ N₂) : Woven env operands N N₂ B B' := by
  induction h with
  | nil => exact .nil
  | cons hI hpiece _ ih => exact .cons hI (hpiece.mono hle) ih

/-- What is after an instruction is one call at most. -/
theorem Piece.after_cases (h : Piece env N N₁ I before after) :
    after = [] ∨ ∃ q a args, after = [hook q a args] ∧ IsInserted a ∧ N ≤ q := by
  cases h with
  | plain hb ha => exact Or.inl rfl
  | access hop hb ha hid hc hcp hpq hq => exact Or.inr ⟨_, _, _, rfl, isInserted_of_afterName ha, by omega⟩
  | fork hop hb ha hid hp hq => exact Or.inr ⟨_, _, _, rfl, isInserted_of_afterName ha, hp⟩
  | call hop hf hb ha hid hp hpq hq => exact Or.inr ⟨_, _, _, rfl, isInserted_of_afterName ha, by omega⟩

theorem insertedCall_eq_hook {a : Str} (ha : a ∉ env.otherNames) (p : ℕ) (args : List Operand) :
    insertedCall env p a args = hook p a args := by
  rw [insertedCall, if_neg ha]

/-- **What the loop makes of a block.** -/
theorem woven_of_instrBlock (hother : ∀ a ∈ specials, a ∉ env.otherNames) (hlow : ∀ I ∈ B, Low operands N I)
    (hN : N ≤ st.next) (hids : ∀ e ∈ env.instIdMap, e.1 < N) (h : instrBlock env n B st = .ok (vs, st')) :
    Woven env operands N st'.next B (blockOf vs) ∧ st.next ≤ st'.next := by
  induction B generalizing n st vs with
  | nil =>
    cases n with
    | zero => cases h
    | succ n =>
      obtain ⟨rfl, rfl⟩ := h
      exact ⟨.nil, le_rfl⟩
  | cons I B ih =>
    obtain ⟨hI, hlow⟩ := List.forall_mem_cons.mp hlow
    cases n with
    | zero => cases h
    | succ n =>
      rw [instrBlock] at h
      obtain ⟨⟨v, st₁⟩, hv, h⟩ := bind_eq_ok.mp h
      obtain ⟨⟨vs', st₂⟩, hrest, h⟩ := bind_eq_ok.mp h
      obtain ⟨rfl, rfl⟩ := h
      obtain ⟨hinst, hpiece, hnext⟩ := piece_of_visit hN hother hv
      have hblock : ∀ B', blockOf (v :: B') = v.before ++ ⟨I.ptr, I.op.setVolatile⟩ :: blockOf B' := fun B' => by
        rw [blockOf, List.flatMap_cons, hinst, List.append_assoc]
        rfl
      obtain hafter | ⟨q, a, args, hafter, ha, hq⟩ := hpiece.after_cases
      · rw [hafter, List.nil_append] at hrest
        obtain ⟨hwoven, hnext'⟩ := ih hlow (hN.trans hnext) hrest
        rw [hblock]
        exact ⟨.cons hI (hafter ▸ hpiece.mono hnext') hwoven, hnext.trans hnext'⟩
      · -- the call that was inserted is next: it is passed over
        rw [hafter, List.singleton_append,
          ← insertedCall_eq_hook (hother a (mem_specials_of_isInserted ha)) q args] at hrest
        cases n with
        | zero => cases hrest
        | succ n =>
          rw [instrBlock_inserted ha fun e he => ((hids e he).trans_le hq).ne] at hrest
          split_ifs at hrest
          obtain ⟨⟨vs'', st₃⟩, hB, heq⟩ := map_eq_ok.mp hrest
          obtain ⟨rfl, rfl⟩ := Prod.mk.inj heq
          obtain ⟨hwoven, hnext'⟩ := ih hlow (hN.trans hnext) hB
          rw [hblock]
          refine ⟨?_, hnext.trans hnext'⟩
          have hcons := Woven.cons hI (hafter ▸ hpiece.mono hnext') hwoven
          rw [insertedCall_eq_hook (hother a (mem_specials_of_isInserted ha)) q args]
          exact hcons

/-! ### Functions -/

/-- What is before a block: in the first block of `main`, the call of `_before_main`. -/
def Entrance (N N₁ : ℕ) (func : Str) (b : ℕ) (hooks : List Inst) : Prop :=
  if func = "main".toList ∧ b = 0 then ∃ q, hooks = [hook q "_before_main".toList []] ∧ N ≤ q ∧ q < N₁ else hooks = []

theorem Entrance.mono {func : Str} {b : ℕ} {hooks : List Inst} (h : Entrance N N₁ func b hooks) (hle : N₁ ≤ N₂) :
    Entrance N N₂ func b hooks := by
  unfold Entrance at h ⊢
  split_ifs with hmain
  · obtain ⟨q, hhooks, hq, hq₁⟩ := (if_pos hmain).mp h
    exact ⟨q, hhooks, hq, hq₁.trans_le hle⟩
  · exact (if_neg hmain).mp h

/-- A function and what the pass makes of it. -/
structure Laid (env : Env) (operands : ℕ → List Operand) (N N₁ : ℕ) (F F' : Function) : Prop where
  name : F'.name = F.name
  length : F'.blocks.length = F.blocks.length
  block : ∀ b B, F.blocks[b]? = some B → ∃ hooks B', F'.blocks[b]? = some (hooks ++ B') ∧
    Entrance N N₁ F.name b hooks ∧ Woven env operands N N₁ B B'

theorem Laid.mono (h : Laid env operands N N₁ F F') (hle : N₁ ≤ N₂) : Laid env operands N N₂ F F' where
  name := h.name
  length := h.length
  block b B hB := by
    obtain ⟨hooks, B', hB', hentrance, hwoven⟩ := h.block b B hB
    exact ⟨hooks, B', hB', hentrance.mono hle, hwoven.mono hle⟩

/-- The function that the loops leave. -/
def functionOf (F : Function) (vss : List (List Visit)) : Function := ⟨F.name, vss.map blockOf⟩

theorem woven_of_instrBlocks {blocks : List (List Inst)} {vss : List (List Visit)}
    (hother : ∀ a ∈ specials, a ∉ env.otherNames) (hlow : ∀ B ∈ blocks, ∀ I ∈ B, Low operands N I)
    (hN : N ≤ st.next) (hids : ∀ e ∈ env.instIdMap, e.1 < N) (h : instrBlocks env n blocks st = .ok (vss, st')) :
    List.Forall₂ (fun B vs => Woven env operands N st'.next B (blockOf vs)) blocks vss ∧ st.next ≤ st'.next := by
  induction blocks generalizing st vss with
  | nil =>
    obtain ⟨rfl, rfl⟩ := h
    exact ⟨.nil, le_rfl⟩
  | cons B blocks ih =>
    obtain ⟨hB, hlow⟩ := List.forall_mem_cons.mp hlow
    rw [instrBlocks] at h
    obtain ⟨⟨vs, st₁⟩, hvs, h⟩ := bind_eq_ok.mp h
    obtain ⟨⟨vss', st₂⟩, hvss, h⟩ := bind_eq_ok.mp h
    obtain ⟨rfl, rfl⟩ := h
    obtain ⟨hwoven, hnext₁⟩ := woven_of_instrBlock hother hB hN hids hvs
    obtain ⟨hwovens, hnext₂⟩ := ih hlow (hN.trans hnext₁) hvss
    exact ⟨.cons (hwoven.mono hnext₂) hwovens, hnext₁.trans hnext₂⟩

theorem laid_of_forall₂ {vss : List (List Visit)} (hmain : F.name ≠ "main".toList)
    (h : List.Forall₂ (fun B vs => Woven env operands N N₁ B (blockOf vs)) F.blocks vss) :
    Laid env operands N N₁ F (functionOf F vss) where
  name := rfl
  length := by rw [functionOf, List.length_map, h.length_eq]
  block b B hB := by
    obtain ⟨vs, hvs, hwoven⟩ := CausalOrder.forall₂_getElem? h hB
    exact ⟨[], blockOf vs, by rw [functionOf, List.getElem?_map, hvs]; rfl, (if_neg fun h => hmain h.1).mpr rfl, hwoven⟩

/-- `main`, whose first block begins with a call of the runtime. -/
theorem laid_of_main {blocks : List (List Inst)} {vs : List Visit} {vss : List (List Visit)} {q : ℕ}
    (hmain : F.name = "main".toList) (hblocks : F.blocks = B :: blocks) (hq : N ≤ q) (hq₁ : q < N₁)
    (hB : Woven env operands N N₁ B (blockOf vs))
    (h : List.Forall₂ (fun B vs => Woven env operands N N₁ B (blockOf vs)) blocks vss) :
    Laid env operands N N₁ F (functionOf F ((⟨[], hook q "_before_main".toList [], []⟩ :: vs) :: vss)) where
  name := rfl
  length := by rw [functionOf, hblocks, List.length_map, List.length_cons, List.length_cons, h.length_eq]
  block b B' hB' := by
    rw [hblocks] at hB'
    cases b with
    | zero =>
      cases hB'
      exact ⟨[hook q "_before_main".toList []], blockOf vs, rfl, (if_pos ⟨hmain, rfl⟩).mpr ⟨q, rfl, hq, hq₁⟩, hB⟩
    | succ b =>
      obtain ⟨vs', hvs', hwoven⟩ := CausalOrder.forall₂_getElem? h hB'
      refine ⟨[], blockOf vs', ?_, (if_neg fun h => Nat.succ_ne_zero b h.2).mpr rfl, hwoven⟩
      rw [functionOf, List.map_cons, List.getElem?_cons_succ, List.getElem?_map, hvs']
      rfl

/-- **What the loops make of a function.** -/
theorem laid_of_instrFunction {vss : List (List Visit)} (hother : ∀ a ∈ specials, a ∉ env.otherNames)
    (hlow : ∀ I ∈ F.insts, Low operands N I) (hN : N ≤ st.next) (hids : ∀ e ∈ env.instIdMap, e.1 < N)
    (h : instrFunction env n F st = .ok (vss, st')) :
    Laid env operands N st'.next F (functionOf F vss) ∧ st.next ≤ st'.next := by
  have hlow' : ∀ B ∈ F.blocks, ∀ I ∈ B, Low operands N I := fun B hB I hI => hlow I (mem_insts.mpr ⟨B, hB, hI⟩)
  obtain ⟨⟨blocks, st₁⟩, hentrance, h⟩ := bind_eq_ok.mp h
  by_cases hmain : F.name = "main".toList
  · obtain ⟨I, B, blocks', hF⟩ := exists_of_instrFunctionEntrance hmain hentrance
    rw [instrFunctionEntrance_main hmain hF] at hentrance
    obtain ⟨rfl, rfl⟩ := Prod.mk.inj (Except.ok.inj hentrance)
    dsimp only at h
    rw [instrBlocks] at h
    obtain ⟨⟨vs, st₁⟩, hvs, h⟩ := bind_eq_ok.mp h
    obtain ⟨⟨vss', st₂⟩, hvss, h⟩ := bind_eq_ok.mp h
    obtain ⟨rfl, rfl⟩ := h
    rw [hF] at hlow'
    obtain ⟨hlowB, hlows⟩ := List.forall_mem_cons.mp hlow'
    cases n with
    | zero => cases hvs
    | succ n =>
      rw [instrBlock_inserted (by decide) fun e he => ((hids e he).trans_le hN).ne] at hvs
      split_ifs at hvs
      obtain ⟨⟨vs', st₃⟩, hB, heq⟩ := map_eq_ok.mp hvs
      obtain ⟨rfl, rfl⟩ := Prod.mk.inj heq
      obtain ⟨hwoven, hnext₁⟩ := woven_of_instrBlock hother hlowB (Nat.le_succ_of_le hN) hids hB
      obtain ⟨hwovens, hnext₂⟩ := woven_of_instrBlocks hother hlows ((Nat.le_succ_of_le hN).trans hnext₁) hids hvss
      have hq : st.next < st'.next := (Nat.lt_succ_self _).trans_le (hnext₁.trans hnext₂)
      rw [insertedCall_eq_hook (hother _ (by decide))]
      exact ⟨laid_of_main hmain hF hN hq (hwoven.mono hnext₂) hwovens, hq.le⟩
  · rw [instrFunctionEntrance, if_neg hmain] at hentrance
    obtain ⟨rfl, rfl⟩ := Prod.mk.inj (Except.ok.inj hentrance)
    obtain ⟨hwoven, hnext⟩ := woven_of_instrBlocks hother hlow' hN hids h
    exact ⟨laid_of_forall₂ hmain hwoven, hnext⟩

/-- **What the loops make of the functions.** -/
theorem laid_of_instrumentIR {functions : List Function} {out : List (List (List Visit))}
    (hother : ∀ a ∈ specials, a ∉ env.otherNames) (hlow : ∀ I ∈ insts functions, Low operands N I)
    (hN : N ≤ st.next) (hids : ∀ e ∈ env.instIdMap, e.1 < N)
    (h : instrumentIR env n functions st = .ok (out, st')) :
    List.Forall₂ (Laid env operands N st'.next) functions (List.zipWith functionOf functions out) ∧
      st.next ≤ st'.next := by
  induction functions generalizing st out with
  | nil =>
    obtain ⟨rfl, rfl⟩ := h
    exact ⟨.nil, le_rfl⟩
  | cons F functions ih =>
    rw [insts, List.flatMap_cons] at hlow
    obtain ⟨hF, hlow⟩ := List.forall_mem_append.mp hlow
    rw [instrumentIR_cons] at h
    obtain ⟨⟨vss, st₁⟩, hvss, h⟩ := bind_eq_ok.mp h
    obtain ⟨⟨out', st₂⟩, hout, h⟩ := bind_eq_ok.mp h
    obtain ⟨rfl, rfl⟩ := h
    obtain ⟨hlaid, hnext₁⟩ := laid_of_instrFunction hother hF hN hids hvss
    obtain ⟨hlaids, hnext₂⟩ := ih hlow (hN.trans hnext₁) hout
    exact ⟨.cons (hlaid.mono hnext₂) hlaids, hnext₁.trans hnext₂⟩

end Instrument

end Schnauzer
