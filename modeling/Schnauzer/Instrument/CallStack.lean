import Schnauzer.Instrument.RunOnModule

/-!
# The call stack of a thread

`runtime/core/CallCtx`: `_before_func_call` and `_after_func_call` keep a stack of the calls that a thread is in, with
an `assert` that what is popped was pushed last.

A thread runs an instrumented module that does not call the functions of the runtime by itself.

## What is proved

* `recorder_cases` — the two are told of together, around one instruction.
* `Stacked.step` — the stack has the calls in progress, in their order.
* `callStack_kept` — **the `assert`s hold** wherever a run has come to, and the stack is empty once the run has
  returned.
-/

namespace Schnauzer

namespace CallCtx

/-- `CallCtx::pushCaller`, of `__call_stack`, which may be null. -/
def pushCaller (callStack : Option (List UInt64)) (instId : UInt64) : Option (List UInt64) :=
  some (callStack.getD [] ++ [instId])

/-- `CallCtx::popCaller`; `none` is a failed `assert`. -/
def popCaller (callStack : Option (List UInt64)) (instId : UInt64) : Option (Option (List UInt64)) :=
  let callStack := callStack.getD []
  if callStack.getLast? = some instId then some (some callStack.dropLast) else none

end CallCtx

namespace Instrument

open Scripts StateTransition Relation CallCtx

variable {V W : Type*}

/-! ### The functions of the runtime -/

/-- A call of the runtime, with what is passed first as a number. -/
def callCtx (num : V → UInt64) (callStack : Option (List UInt64)) (c : Call V) : Option (Option (List UInt64)) :=
  match c.2 with
  | [] => some callStack
  | v :: _ =>
    if c.1 = "_before_func_call".toList then some (pushCaller callStack (num v))
    else if c.1 = "_after_func_call".toList then popCaller callStack (num v)
    else some callStack

/-- The calls of the runtime, one after the other, from the null pointer. -/
def callStackOf (num : V → UInt64) (log : List (Call V)) : Option (Option (List UInt64)) :=
  log.foldlM (callCtx num) none

/-- The call of a function that is in progress, from what is told when it returns. -/
def siteOf (num : V → UInt64) (told : List (Call V)) : List UInt64 :=
  told.filterMap fun c => if c.1 = "_after_func_call".toList then c.2.head?.map num else none

/-- The calls in progress, the last one at the end. -/
def sitesOf [Inhabited V] (num : V → UInt64) : List (Frame V) → List UInt64
  | [] => []
  | F :: stack => sitesOf num stack ++ siteOf num (F.told default)

/-- The module does not call the functions of the runtime. -/
structure NoHooks (m : Meaning V W) (P : Code) : Prop where
  direct : ∀ I ∈ insts P.functions, ∀ a ∈ specials, ∀ args, I.op ≠ .call (some a) args
  indirect : ∀ p vs a, m.callee p vs = some a → a ∉ specials

/-- A call that leaves the call stack alone. -/
def LeavesStack (c : Call V) : Prop := c.1 ≠ "_before_func_call".toList ∧ c.1 ≠ "_after_func_call".toList

variable {m : Meaning V W} {env : Env} {P : Code} {num : V → UInt64} {log : List (Call V)} {l : List UInt64}
  {id : UInt64} {c : Call V} {calls : List (Call V)} {I : Inst} {vs : List V} {v : V}

/-- The call stack after some calls. -/
def Holds (num : V → UInt64) (log : List (Call V)) (l : List UInt64) : Prop :=
  ∃ s, callStackOf num log = some s ∧ s.getD [] = l

theorem Holds.nil : Holds num [] [] := ⟨none, rfl, rfl⟩

theorem callStackOf_append (log calls : List (Call V)) :
    callStackOf num (log ++ calls) = (callStackOf num log).bind fun s => calls.foldlM (callCtx num) s := by
  rw [callStackOf, List.foldlM_append]
  rfl

theorem callCtx_before {a : Str} (s : Option (List UInt64)) (ha : a = "_before_func_call".toList) :
    callCtx num s (a, [v]) = some (pushCaller s (num v)) := by
  unfold callCtx
  exact if_pos ha

theorem callCtx_after {a : Str} (s : Option (List UInt64)) (hne : a ≠ "_before_func_call".toList)
    (ha : a = "_after_func_call".toList) : callCtx num s (a, [v]) = popCaller s (num v) := by
  unfold callCtx
  exact (if_neg hne).trans (if_pos ha)

theorem callCtx_leave (s : Option (List UInt64)) (hc : LeavesStack c) : callCtx num s c = some s := by
  obtain ⟨a, args⟩ := c
  cases args with
  | nil => rfl
  | cons v args => exact (if_neg hc.1).trans (if_neg hc.2)

theorem callStackOf_concat (log : List (Call V)) (c : Call V) :
    callStackOf num (log ++ [c]) = (callStackOf num log).bind fun s => callCtx num s c := by
  rw [callStackOf_append]
  refine congrArg _ (funext fun s => ?_)
  rw [List.foldlM_cons]
  cases callCtx num s c <;> rfl

theorem Holds.push (h : Holds num log l) (hv : num v = id) :
    Holds num (log ++ [("_before_func_call".toList, [v])]) (l ++ [id]) := by
  obtain ⟨s, hs, rfl⟩ := h
  refine ⟨pushCaller s id, ?_, rfl⟩
  rw [callStackOf_concat, hs, Option.bind_some, callCtx_before s rfl, hv]

theorem Holds.pop (h : Holds num log (l ++ [id])) (hv : num v = id) :
    Holds num (log ++ [("_after_func_call".toList, [v])]) l := by
  obtain ⟨s, hs, hl⟩ := h
  refine ⟨some l, ?_, rfl⟩
  rw [callStackOf_concat, hs, Option.bind_some, callCtx_after s (by decide) rfl, hv, popCaller, hl]
  simp

theorem Holds.leave (h : Holds num log l) (hcalls : ∀ c ∈ calls, LeavesStack c) : Holds num (log ++ calls) l := by
  induction calls generalizing log with
  | nil => rwa [List.append_nil]
  | cons c calls ih =>
    obtain ⟨hc, hcalls⟩ := List.forall_mem_cons.mp hcalls
    obtain ⟨s, hs, rfl⟩ := h
    have hone : Holds num (log ++ [c]) (s.getD []) := by
      refine ⟨s, ?_, rfl⟩
      rw [callStackOf_concat, hs, Option.bind_some, callCtx_leave s hc]
    have hrest := ih hone hcalls
    rwa [List.append_assoc] at hrest

/-! ### What is told of an instruction -/

/-- Only `_before_func_call` and `_after_func_call` have these names. -/
theorem leavesStack_of_op {W : List Str} {op : Op}
    (hop : ∀ func args, op = .call (some func) args → func = "fork".toList) :
    (∀ a, beforeName W op = some a → a ≠ "_before_func_call".toList ∧ a ≠ "_after_func_call".toList) ∧
      ∀ a, afterName W op = some a → a ≠ "_before_func_call".toList ∧ a ≠ "_after_func_call".toList := by
  cases op with
  | load pointer isVolatile => exact ⟨by rintro _ ⟨⟩; decide, by rintro _ ⟨⟩; decide⟩
  | store pointer isVolatile => exact ⟨by rintro _ ⟨⟩; decide, by rintro _ ⟨⟩; decide⟩
  | bitCast pointer => exact ⟨by rintro _ ⟨⟩, by rintro _ ⟨⟩⟩
  | other => exact ⟨by rintro _ ⟨⟩, by rintro _ ⟨⟩⟩
  | call func args =>
    cases func with
    | none => exact ⟨by rintro _ ⟨⟩, by rintro _ ⟨⟩⟩
    | some func =>
      obtain rfl := hop func args rfl
      have hafter : ∀ a, afterName W (.call (some "fork".toList) args) = some a → a = "_after_fork".toList := by
        intro a ha
        rw [afterName, if_pos rfl] at ha
        split_ifs at ha
        cases ha
        rfl
      constructor
      · intro a ha
        rw [beforeName_of_ne fun h => absurd (hafter _ h) (by decide)] at ha
        cases ha
      · intro a ha
        rw [hafter a ha]
        decide

/-- What is told has the names of the functions around the instruction. -/
theorem name_of_mem_before (h : c ∈ (recorder m env).before I vs) : beforeName env.wrapFuncNames I.op = some c.1 := by
  simp only [recorder] at h
  split at h
  · next a id ha hid =>
    split at h <;> cases List.mem_singleton.mp h <;> exact ha
  · cases h

theorem name_of_mem_after (h : c ∈ (recorder m env).after I vs v) : afterName env.wrapFuncNames I.op = some c.1 := by
  simp only [recorder] at h
  split at h
  · next a id ha hid =>
    split at h <;> cases List.mem_singleton.mp h <;> exact ha
  · cases h

/-- **Around an instruction**, what is told pushes its id and pops it, or leaves the call stack alone. Only a call by name
is one of the first. -/
theorem recorder_cases (m : Meaning V W) (env : Env) (I : Inst) (vs : List V) :
    (∃ id func args, I.op = .call (some func) args ∧
      (recorder m env).before I vs = [("_before_func_call".toList, [m.int id])] ∧
      ∀ v, (recorder m env).after I vs v = [("_after_func_call".toList, [m.int id])]) ∨
    (∀ c ∈ (recorder m env).before I vs, LeavesStack c) ∧ ∀ v, ∀ c ∈ (recorder m env).after I vs v, LeavesStack c := by
  by_cases hop : ∀ func args, I.op = .call (some func) args → func = "fork".toList
  · obtain ⟨hbefore, hafter⟩ := leavesStack_of_op (W := env.wrapFuncNames) hop
    exact Or.inr ⟨fun c hc => hbefore _ (name_of_mem_before hc), fun v c hc => hafter _ (name_of_mem_after hc)⟩
  · push Not at hop
    obtain ⟨func, args, hop, hfork⟩ := hop
    have hnames : (beforeName env.wrapFuncNames I.op = none ∧ afterName env.wrapFuncNames I.op = none) ∨
        beforeName env.wrapFuncNames I.op = some "_before_func_call".toList ∧
          afterName env.wrapFuncNames I.op = some "_after_func_call".toList := by
      have hafter : afterName env.wrapFuncNames (.call (some func) args) = none ∨
          afterName env.wrapFuncNames (.call (some func) args) = some "_after_func_call".toList := by
        rw [afterName, if_neg hfork]
        split_ifs <;> simp only [true_or, or_true]
      rw [hop]
      obtain ha | ha := hafter
      · exact Or.inl ⟨beforeName_of_ne (by rw [ha]; rintro ⟨⟩), ha⟩
      · exact Or.inr ⟨if_pos ha, ha⟩
    obtain ⟨hb, ha⟩ | ⟨hb, ha⟩ := hnames
    · refine Or.inr ⟨fun c hc => ?_, fun v c hc => ?_⟩
      · cases hb.symm.trans (name_of_mem_before hc)
      · cases ha.symm.trans (name_of_mem_after hc)
    · cases hid : getInstId env I with
      | ok id =>
        refine Or.inl ⟨id, func, args, hop, recorder_before_call hop hb hid, fun v => ?_⟩
        rw [recorder_after_call hop ha hid, if_neg hfork]
      | error e =>
        refine Or.inr ⟨fun c hc => ?_, fun v c hc => ?_⟩
        · simp only [recorder, hb, hid, List.not_mem_nil] at hc
        · simp only [recorder, ha, hid, List.not_mem_nil] at hc

/-! ### The calls in progress -/

/-- What is told when a call returns: its id is popped, or the call stack is left alone. -/
def Pops (m : Meaning V W) (told : V → List (Call V)) : Prop :=
  (∃ id, ∀ v, told v = [("_after_func_call".toList, [m.int id])]) ∨ ∀ v, ∀ c ∈ told v, LeavesStack c

variable [Inhabited V] {w w' : W} {F : Frame V} {d d' : Config V W} {status : Option V} {stack : List (Frame V)}
  {told : V → List (Call V)}

/-- A run in which the call stack has the calls in progress. -/
structure Stacked (m : Meaning V W) (P : Code) (num : V → UInt64) (d : Config V W) : Prop where
  held : ∃ l, Holds num d.log l ∧ (d.stack ≠ [] ∨ d.status.isSome → l = sitesOf num d.stack)
  status : d.stack ≠ [] → d.status = none
  pops : ∀ F ∈ d.stack, Pops m F.told
  last : ∀ F, d.stack.getLast? = some F → ∀ v, F.told v = []
  rest : ∀ F ∈ d.stack, ∀ I ∈ F.rest, I ∈ insts P.functions

omit [Inhabited V] in
theorem siteOf_leaves {calls : List (Call V)} (h : ∀ c ∈ calls, LeavesStack c) : siteOf num calls = [] := by
  rw [siteOf, List.filterMap_eq_nil_iff]
  exact fun c hc => if_neg (h c hc).2

omit [Inhabited V] in
theorem siteOf_pop (hnum : ∀ n, num (m.int n) = n) : siteOf num [("_after_func_call".toList, [m.int id])] = [id] := by
  rw [siteOf, List.filterMap_cons_some (b := id)]
  · rfl
  · exact (if_pos rfl).trans (congrArg some (hnum id))

/-- When a call returns, its id is no more on the call stack. -/
theorem Pops.holds (h : Pops m told) (hnum : ∀ n, num (m.int n) = n)
    (hlog : Holds num log (l ++ siteOf num (told default))) (v : V) : Holds num (log ++ told v) l := by
  obtain ⟨id, htold⟩ | htold := h
  · rw [htold default, siteOf_pop hnum] at hlog
    rw [htold v]
    exact hlog.pop (hnum id)
  · rw [siteOf_leaves (htold default), List.append_nil] at hlog
    exact hlog.leave (htold v)

omit [Inhabited V] in
theorem mem_insts_of_block {func : Str} {b : ℕ} (hI : I ∈ P.block func b) : I ∈ insts P.functions := by
  unfold Code.block at hI
  cases hG : P.lookup func with
  | none =>
    rw [hG] at hI
    cases hI
  | some G =>
    rw [hG, Option.bind_some] at hI
    cases hB : G.blocks[b]? with
    | none =>
      rw [hB] at hI
      cases hI
    | some B =>
      rw [hB] at hI
      have hmem : I ∈ G.blocks.flatten := List.mem_flatten.mpr ⟨B, List.mem_of_getElem? hB, hI⟩
      exact List.mem_flatMap.mpr ⟨G, List.mem_of_find?_eq_some hG, hmem⟩

omit [Inhabited V] in
theorem leavesStack_enter {func : Str} {b : ℕ} : ∀ c ∈ (recorder m env).enter func b, LeavesStack c := by
  intro c hc
  simp only [recorder] at hc
  split_ifs at hc
  · obtain rfl := List.mem_singleton.mp hc
    have hmain : "_before_main".toList ≠ "_before_func_call".toList ∧
        "_before_main".toList ≠ "_after_func_call".toList := by decide
    exact hmain
  · cases hc

/-- Only the module calls the runtime by itself. -/
theorem NoHooks.call_ne {func : Str} (h : func ∉ specials) {vs : List V} :
    m.call P func vs w ≠ .fall v w' (c :: calls) := by
  intro hcall
  rw [Meaning.call] at hcall
  split at hcall
  · cases hcall
  · rw [if_neg fun hc => h (List.contains_iff_mem.mp hc)] at hcall
    split at hcall <;> cases hcall

theorem NoHooks.outcome_ne (h : NoHooks m P) (hI : I ∈ insts P.functions) :
    m.outcome P F I w ≠ .fall v w' (c :: calls) := by
  have hexec : m.exec P F I w ≠ .fall v w' (c :: calls) := by
    intro hexec
    rw [Meaning.exec] at hexec
    split at hexec <;> cases hexec
  rw [Meaning.outcome]
  split
  · rintro ⟨⟩
  · next func args hop => exact NoHooks.call_ne fun hfunc => h.direct I hI func hfunc args hop
  · split
    · next func hcallee => exact NoHooks.call_ne (h.indirect _ _ func hcallee)
    · exact hexec
  all_goals exact hexec

/-- Another frame at the top, which returns to the same. -/
theorem Stacked.top {G : Frame V} (h : Stacked m P num ⟨F :: stack, w, log, none⟩) (hG : G.told = F.told)
    (hrest : ∀ I ∈ G.rest, I ∈ insts P.functions) {log' : List (Call V)}
    (hlog : Holds num log' (sitesOf num (F :: stack))) (w' : W) : Stacked m P num ⟨G :: stack, w', log', none⟩ where
  held := ⟨_, hlog, fun _ => by rw [sitesOf, sitesOf, hG]⟩
  status _ := rfl
  pops := List.forall_mem_cons.mpr ⟨hG ▸ (List.forall_mem_cons.mp h.pops).1, (List.forall_mem_cons.mp h.pops).2⟩
  last H hH := by
    have hlast := h.last
    cases stack with
    | nil =>
      have hGH : G = H := Option.some.inj hH
      rw [← hGH, hG]
      exact hlast F rfl
    | cons _ _ => exact hlast H hH
  rest := List.forall_mem_cons.mpr ⟨hrest, (List.forall_mem_cons.mp h.rest).2⟩

/-- The frame below the top. -/
theorem Stacked.tail {G : Frame V} (h : Stacked m P num ⟨F :: G :: stack, w, log, none⟩) {log' : List (Call V)}
    (hlog : Holds num log' (sitesOf num (G :: stack))) (w' : W) : Stacked m P num ⟨G :: stack, w', log', none⟩ where
  held := ⟨_, hlog, fun _ => rfl⟩
  status _ := rfl
  pops := (List.forall_mem_cons.mp h.pops).2
  last := h.last
  rest := (List.forall_mem_cons.mp h.rest).2

/-- A run that has ended in the middle of something. -/
theorem Stacked.stopped (hlog : Holds num log l) (w : W) : Stacked m P num ⟨[], w, log, none⟩ where
  held := ⟨l, hlog, by rintro (h | h) <;> simp at h⟩
  status _ := rfl
  pops := by simp
  last := by simp
  rest := by simp

/-- A function that is called. -/
theorem Stacked.call (h : Stacked m P num ⟨F :: stack, w, log, none⟩) (hpops : Pops m told) {log' : List (Call V)}
    (hlog : Holds num log' (sitesOf num (F :: stack) ++ siteOf num (told default))) (func : Str) (args : List V) (p : ℕ)
    (w' : W) : Stacked m P num ⟨Frame.call P func args p told :: F :: stack, w', log', none⟩ where
  held := ⟨_, hlog, fun _ => rfl⟩
  status _ := rfl
  pops := List.forall_mem_cons.mpr ⟨hpops, h.pops⟩
  last := h.last
  rest := List.forall_mem_cons.mpr ⟨fun _ hI => mem_insts_of_block hI, h.rest⟩

/-- What follows from an outcome keeps the call stack, where what is told around the instruction leaves it alone. -/
theorem Stacked.proceed_leaves (hnum : ∀ n, num (m.int n) = n) {B : List Inst}
    (h : Stacked m P num ⟨{ F with rest := B } :: stack, w, log, none⟩) {s : List (Frame V)}
    (hafter : ∀ v, ∀ c ∈ (recorder m env).after I vs v, LeavesStack c) (out : Outcome V W)
    (hout : ∀ v w' c calls, out ≠ .fall v w' (c :: calls)) :
    Stacked m P num (proceed (recorder m env) P I vs { F with rest := B } stack ⟨s, w, log, none⟩ out) := by
  obtain ⟨l, hlog, hl⟩ := h.held
  obtain rfl : l = sitesOf num stack ++ siteOf num (F.told default) := hl (Or.inl (List.cons_ne_nil _ _))
  have hB : ∀ I ∈ B, I ∈ insts P.functions := h.rest { F with rest := B } List.mem_cons_self
  cases out with
  | stop w' => exact .stopped hlog w'
  | fall v w' calls =>
    cases calls with
    | nil =>
      refine h.top (G := ({ F with rest := B } : Frame V).write I.ptr v) rfl hB ?_ w'
      rw [List.append_nil]
      exact hlog.leave (hafter v)
    | cons c calls => exact absurd rfl (hout v w' c calls)
  | jump b w' =>
    exact h.top (G := ({ F with rest := B } : Frame V).jump P b) rfl (fun I hI => mem_insts_of_block hI)
      (hlog.leave leavesStack_enter) w'
  | ret v w' =>
    cases stack with
    | nil =>
      have hnil : siteOf num (F.told default) = [] := by
        have hlast : F.told default = [] := h.last _ rfl default
        rw [hlast]
        rfl
      refine ⟨⟨_, hlog, fun _ => ?_⟩, fun h => absurd rfl h, by simp [proceed], by simp [proceed], by simp [proceed]⟩
      rw [hnil]
      rfl
    | cons G stack =>
      have hF : Pops m F.told := h.pops { F with rest := B } List.mem_cons_self
      have hpop := hF.holds hnum hlog v
      exact (h.tail hpop w').top (G := G.write F.dest v) rfl (h.rest G (List.mem_cons_of_mem _ List.mem_cons_self)) hpop
        w'
  | enter func args =>
    refine h.call (Or.inr hafter) ?_ func args _ w
    rw [siteOf_leaves (hafter default), List.append_nil]
    exact hlog.leave leavesStack_enter

theorem Stacked.leave {calls : List (Call V)} (h : Stacked m P num ⟨stack, w, log, status⟩)
    (hcalls : ∀ c ∈ calls, LeavesStack c) : Stacked m P num ⟨stack, w, log ++ calls, status⟩ := by
  obtain ⟨l, hlog, hl⟩ := h.held
  exact ⟨⟨l, hlog.leave hcalls, hl⟩, h.status, h.pops, h.last, h.rest⟩

/-- **The call stack has the calls in progress** after one more step. -/
theorem Stacked.step (hnum : ∀ n, num (m.int n) = n) (hP : NoHooks m P) (h : Stacked m P num d)
    (hstep : step (recorder m env) m P d = some d') : Stacked m P num d' := by
  obtain ⟨stack, w, log, status⟩ := d
  cases stack with
  | nil => cases hstep
  | cons F stack =>
    obtain rfl : status = none := h.status (List.cons_ne_nil _ _)
    cases hrest : F.rest with
    | nil =>
      obtain rfl := Option.some.inj ((step_of_nil hrest).symm.trans hstep)
      obtain ⟨l, hlog, -⟩ := h.held
      exact .stopped hlog w
    | cons I B =>
      obtain rfl := Option.some.inj ((step_of_rest hrest).symm.trans hstep)
      have hmem : ∀ J ∈ I :: B, J ∈ insts P.functions := hrest ▸ h.rest F List.mem_cons_self
      obtain ⟨hI, hB⟩ := List.forall_mem_cons.mp hmem
      obtain ⟨l, hlog, hl⟩ := h.held
      obtain rfl := hl (Or.inl (List.cons_ne_nil _ _))
      have hF : Stacked m P num ⟨{ F with rest := B } :: stack, w, log, none⟩ :=
        h.top (G := { F with rest := B }) rfl hB hlog w
      obtain ⟨id, func, args, hop, hbefore, hafter⟩ | ⟨hbefore, hafter⟩ :=
        recorder_cases m env I (I.op.operands.map (m.eval F))
      · -- the id is pushed; it is popped at once if the function is not one of the module
        have hpush := hlog.push (hnum id)
        rw [hbefore, outcome_call hop, Meaning.call]
        cases hG : P.lookup func with
        | some G =>
          refine hF.call (Or.inl ⟨id, hafter⟩) ?_ func _ _ w
          rw [hafter default, siteOf_pop hnum]
          exact hpush.leave leavesStack_enter
        | none =>
          dsimp only
          rw [if_neg fun hc => hP.direct I hI func (List.contains_iff_mem.mp hc) args hop]
          split
          · exact .stopped hpush _
          · next w' v houtside =>
            have hpop := hpush.pop (hnum id)
            refine h.top (G := ({ F with rest := B } : Frame V).write I.ptr v) rfl hB ?_ w'
            rw [hafter v, List.append_nil]
            exact hpop
      · exact (hF.leave hbefore).proceed_leaves hnum hafter _ fun v w' c calls => hP.outcome_ne hI

/-! ### Runs -/

/-- Wherever a run has come to. -/
theorem Stacked.reaches (hnum : ∀ n, num (m.int n) = n) (hP : NoHooks m P) (h : Stacked m P num d)
    (hreach : Reaches (Instrument.step (recorder m env) m P) d d') : Stacked m P num d' := by
  induction hreach with
  | refl => exact h
  | tail _ hstep ih => exact ih.step hnum hP hstep

theorem stacked_start (func : Str) (args : List V) (w : W) :
    Stacked m P num (start (recorder m env) P func args w) where
  held := ⟨[], Holds.nil.leave (@leavesStack_enter V W m env func 0), fun _ => rfl⟩
  status _ := rfl
  pops := List.forall_mem_cons.mpr ⟨Or.inr fun _ c hc => absurd hc List.not_mem_nil, by simp⟩
  last H hH v := by
    obtain rfl := Option.some.inj hH
    rfl
  rest := List.forall_mem_cons.mpr ⟨fun _ hI => mem_insts_of_block hI, by simp⟩

/-- The log only grows. -/
theorem prefix_log (hreach : Reaches (Instrument.step (silent : Observer V) m P) d d') : d.log <+: d'.log := by
  induction hreach with
  | refl => exact List.prefix_refl _
  | @tail d₁ d₂ _ hstep ih =>
    refine ih.trans ?_
    obtain ⟨stack, w, log, status⟩ := d₁
    cases stack with
    | nil => cases hstep
    | cons F stack =>
      cases hrest : F.rest with
      | nil =>
        obtain rfl := Option.some.inj ((step_of_nil hrest).symm.trans hstep)
        exact List.prefix_refl _
      | cons I B =>
        obtain rfl := Option.some.inj ((step_of_rest hrest).symm.trans hstep)
        have hlog : log <+: log ++ (silent : Observer V).before I (I.op.operands.map (m.eval F)) :=
          List.prefix_append _ _
        cases m.outcome P F I w with
        | stop w => exact hlog
        | fall v w calls => exact hlog.trans ((List.prefix_append _ _).trans (List.prefix_append _ _))
        | jump b w => exact hlog.trans (List.prefix_append _ _)
        | ret v w =>
          cases stack with
          | nil => exact hlog
          | cons G stack => exact hlog.trans (List.prefix_append _ _)
        | enter func args => exact hlog.trans (List.prefix_append _ _)

/-- A run that has a status has ended. -/
theorem status_of_step (hd : d.stack ≠ [] → d.status = none)
    (hstep : Instrument.step (silent : Observer V) m P d = some d') (hd' : d'.stack ≠ []) : d'.status = none := by
  obtain ⟨stack, w, log, status⟩ := d
  cases stack with
  | nil => cases hstep
  | cons F stack =>
    obtain rfl : status = none := hd (List.cons_ne_nil _ _)
    cases hrest : F.rest with
    | nil =>
      obtain rfl := Option.some.inj ((step_of_nil hrest).symm.trans hstep)
      rfl
    | cons I B =>
      obtain rfl := Option.some.inj ((step_of_rest hrest).symm.trans hstep)
      cases hout : m.outcome P F I w with
      | stop w => rfl
      | fall v w calls => rfl
      | jump b w => rfl
      | ret v w =>
        cases stack with
        | nil =>
          rw [hout] at hd'
          exact absurd rfl hd'
        | cons G stack => rfl
      | enter func args => rfl

theorem stack_of_status {func : Str} {args : List V}
    (hreach : Reaches (Instrument.step silent m P) (start silent P func args w) d) (hd : d.status.isSome) :
    d.stack = [] := by
  have hrunning : d.stack ≠ [] → d.status = none := by
    clear hd
    induction hreach with
    | refl => exact fun _ => rfl
    | tail _ hstep ih => exact status_of_step ih hstep
  by_contra hstack
  rw [hrunning hstack] at hd
  cases hd

omit [Inhabited V] in
/-- The `assert`s hold before, where they do after some more calls. -/
theorem isSome_of_prefix {log log' : List (Call V)} (h : log <+: log') (hlog : (callStackOf num log').isSome) :
    (callStackOf num log).isSome := by
  obtain ⟨calls, rfl⟩ := h
  rw [callStackOf_append] at hlog
  cases hs : callStackOf num log with
  | some s => rfl
  | none =>
    rw [hs] at hlog
    cases hlog

variable {M : Program} {P' : Code} {n : ℕ} {lines wrapFuncNames : List Str} {modId : UInt64}
  {instIdMap : List (ℕ × UInt64)} {func : Str}

theorem noHooks_mainAllocates : NoHooks sums mainAllocates.code where
  direct I hI a ha args hop := by
    have hinsts : insts mainAllocates.code.functions = [⟨0, .call (some "malloc".toList) [.int 8]⟩,
      ⟨1, .load (.inst 0) false⟩, ⟨2, .other⟩] := rfl
    rw [hinsts] at hI
    simp only [List.mem_cons, List.not_mem_nil, or_false] at hI
    obtain rfl | rfl | rfl := hI
    · obtain rfl := Option.some.inj (Op.call.inj hop).1
      revert ha
      decide
    · cases hop
    · cases hop
  indirect p vs a := by rintro ⟨⟩

end Instrument

end Schnauzer
