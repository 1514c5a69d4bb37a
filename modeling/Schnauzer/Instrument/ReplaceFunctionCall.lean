import Schnauzer.Instrument.Recording

/-!
# The wrapped functions

`llvm/instrument/ReplaceFunctionCall`: a call of a function of `WrapFuncNames_` gives way to one of its wrapper, to
which the id of the call is passed first. The new call is inserted before the old one, all uses of which are replaced,
and the old ones are erased at the end of `runOnModule`.

The uses are replaced here at the end of the loop, in the order of the calls: the loop itself only copies the arguments
of a call, and the copies are uses like the others.

## What is proved

* `useOf_eq_self`, `useOf_eq` — what the uses of an instruction become.
* `stands_of_replaceFunctionCall` — what stands for the instructions of the module.
-/

namespace Schnauzer

namespace Instrument

open Scripts StateTransition Relation

/-! ### The pass -/

/-- `__func_not_wrapper`. -/
def funcNotWrapper : List Str :=
  ["pthread_cancel".toList, "pthread_yield".toList, "pthread_barrier_init".toList, "pthread_barrier_destroy".toList,
    "pthread_barrier_wait".toList, "pthread_mutex_destroy".toList, "pthread_mutex_init".toList,
    "pthread_cond_destroy".toList, "pthread_cond_init".toList, "pthread_dummy".toList, "pthread_kill".toList,
    "pthread_detach".toList, "pthread_equal".toList, "pthread_getschedparam".toList, "pthread_getspecific".toList,
    "pthread_key_create".toList, "pthread_key_delete".toList, "pthread_once".toList, "pthread_rwlock_destroy".toList,
    "pthread_rwlock_init".toList, "pthread_self".toList, "pthread_setcancelstate".toList,
    "pthread_setcanceltype".toList, "pthread_setschedparam".toList, "pthread_setspecific".toList,
    "pthread_testcancel".toList, "pthread_mutex_consistent_np".toList, "pthread_sigmask".toList,
    "pthread_getattr_np".toList, "pthread_setname_np".toList, "pthread_getname_np".toList, "pthread_atfork".toList]

/-- `wrapper_func_name` of `createWrapperFunction`. -/
def wrapperName (funcName : Str) : Str := funcName ++ "_wrapper".toList

/-- An instruction, and the new call that is inserted before it if it is to be erased. -/
structure Replaced where
  newCall : Option Inst
  inst : Inst

/-- `Instrument::replaceCall`; `none` is a failed `assert`. -/
def replaceCall (env : Env) (I : Inst) (func : Option Str) (args : List Operand) : StateT St Option Replaced :=
  fun st =>
  match func with
  | none => some (⟨none, I⟩, st)
  | some funcName =>
    if env.wrapFuncNames.contains funcName then do
      let id ← (getInstId env I).toOption
      let (newCall, st) := createCall env (wrapperName funcName) (.int id :: args) st
      return (⟨some newCall, I⟩, st)
    else if "pthread_attr_".toList <+: funcName ∨ "pthread_condattr_".toList <+: funcName ∨
        "pthread_mutexattr_".toList <+: funcName ∨ "pthread_rwlockattr_".toList <+: funcName ∨
        funcNotWrapper.contains funcName then return (⟨none, I⟩, st)
    else if "pthread_".toList <+: funcName then none
    else return (⟨none, I⟩, st)

/-- The body of the loop. -/
def replaceInst (env : Env) (I : Inst) : StateT St Option Replaced :=
  match I.op with
  | .call func args => replaceCall env I func args
  | .load _ _ | .store _ _ | .bitCast _ | .other => return ⟨none, I⟩

/-- `Instrument::replaceFunctionCall`. -/
def replaceFunctionCall (env : Env) (functions : List Function) : StateT St Option (List (List (List Replaced))) :=
  functions.mapM fun F => F.blocks.mapM fun B => B.mapM (replaceInst env)

/-- The instructions of which the uses are replaced, with what replaces them. -/
def usesOf (rs : List Replaced) : List (ℕ × ℕ) :=
  rs.filterMap fun r => r.newCall.map fun newCall => (r.inst.ptr, newCall.ptr)

/-- What a use of an instruction has become, when the uses were replaced one after the other. -/
def useOf (uses : List (ℕ × ℕ)) (p : ℕ) : ℕ := uses.foldl (fun p use => if p = use.1 then use.2 else p) p

/-- `replaceAllUsesWith`, of an operand. -/
def Operand.replaceUse (f : ℕ → ℕ) : Operand → Operand
  | .inst p => .inst (f p)
  | .int n => .int n
  | .value k => .value k

/-- `replaceAllUsesWith`, in an instruction. -/
def Op.replaceUses (f : ℕ → ℕ) : Op → Op
  | .load pointer isVolatile => .load (pointer.replaceUse f) isVolatile
  | .store pointer isVolatile => .store (pointer.replaceUse f) isVolatile
  | .call func args => .call func (args.map (·.replaceUse f))
  | .bitCast pointer => .bitCast (pointer.replaceUse f)
  | .other => .other

/-- What is left of an instruction: a call that was replaced is erased. -/
def Replaced.left (f : ℕ → ℕ) (r : Replaced) : Inst :=
  let I := r.newCall.getD r.inst
  ⟨I.ptr, I.op.replaceUses f⟩

/-- The code that is left. -/
def codeOf (functions : List Function) (operands : ℕ → List Operand) (out : List (List (List Replaced))) : Code :=
  let f := useOf (usesOf out.flatten.flatten)
  { functions := List.zipWith (fun F rss => ⟨F.name, rss.map (·.map (Replaced.left f))⟩) functions out
    operands := fun p => (operands p).map (·.replaceUse f) }

/-- A module with the operands that are not in `Op`. -/
structure Program extends Module where
  operands : ℕ → List Operand
  /-- An operand that is an instruction is one of the module. -/
  closed : ∀ I ∈ insts functions, ∀ p, .inst p ∈ I.op.operands ++ operands I.ptr → ∃ J ∈ insts functions, J.ptr = p
  /-- Only an instruction has operands. -/
  operands_eq_nil : ∀ p, (∀ I ∈ insts functions, I.ptr ≠ p) → operands p = []

/-- The code of a module. -/
def Program.code (M : Program) : Code := ⟨M.functions, M.operands⟩

/-- `Instrument::runOnModule`, for at most `n` instructions in a block; `none` is a failed `assert`. -/
def runOnModule (n : ℕ) (lines : List Str) (modId : UInt64) (M : Program) : Option Code := do
  let wrapFuncNames ← loadWrapFuncDefs lines
  let instIdMap ← collectSrcInfo modId M.toModule
  let env : Env := ⟨wrapFuncNames, modId, instIdMap, M.otherNames⟩
  let (out, st) ← (instrumentIR env n M.functions ⟨freshPtr M.toModule, 0, 0, 0⟩).toOption
  let functions := List.zipWith functionOf M.functions out
  let (out, _) ← replaceFunctionCall env functions st
  return codeOf functions M.operands out

/-! ### The uses -/

variable {uses : List (ℕ × ℕ)} {p q : ℕ}

theorem useOf_eq_self (h : ∀ use ∈ uses, use.1 ≠ p) : useOf uses p = p := by
  induction uses with
  | nil => rfl
  | cons use uses ih =>
    have ⟨huse, huses⟩ := List.forall_mem_cons.mp h
    rw [useOf, List.foldl_cons, if_neg huse.symm]
    exact ih huses

/-- **The uses of an instruction** become uses of what replaces it, where that is not replaced in turn. -/
theorem useOf_eq (hnodup : (uses.map Prod.fst).Nodup) (hnew : ∀ use ∈ uses, ∀ use' ∈ uses, use.1 ≠ use'.2)
    (h : (p, q) ∈ uses) : useOf uses p = q := by
  induction uses with
  | nil => cases h
  | cons use uses ih =>
    have ⟨hfst, hnodup⟩ := List.nodup_cons.mp hnodup
    rw [useOf, List.foldl_cons]
    obtain rfl | h := List.mem_cons.mp h
    · rw [if_pos rfl]
      exact useOf_eq_self fun use' huse' => hnew use' (List.mem_cons_of_mem _ huse') (p, q) List.mem_cons_self
    · have hne : p ≠ use.1 := fun heq => hfst (List.mem_map.mpr ⟨(p, q), h, heq⟩)
      rw [if_neg hne]
      exact ih hnodup (fun u hu u' hu' => hnew u (List.mem_cons_of_mem _ hu) u' (List.mem_cons_of_mem _ hu')) h

/-! ### The loops -/

/-- Addresses that are given to new instructions. -/
structure NewPtrs (ptrs : List ℕ) (a b : ℕ) : Prop where
  le : a ≤ b
  nodup : ptrs.Nodup
  mem : ∀ p ∈ ptrs, a ≤ p ∧ p < b

theorem NewPtrs.nil {a : ℕ} : NewPtrs [] a a := ⟨le_rfl, List.nodup_nil, by simp⟩

theorem NewPtrs.append {l l' : List ℕ} {a b c : ℕ} (h : NewPtrs l a b) (h' : NewPtrs l' b c) :
    NewPtrs (l ++ l') a c where
  le := h.le.trans h'.le
  nodup := List.nodup_append.mpr ⟨h.nodup, h'.nodup, fun p hp q hq =>
    ((h.mem p hp).2.trans_le (h'.mem q hq).1).ne⟩
  mem p hp := by
    obtain hp | hp := List.mem_append.mp hp
    · exact ⟨(h.mem p hp).1, (h.mem p hp).2.trans_le h'.le⟩
    · exact ⟨h.le.trans (h'.mem p hp).1, (h'.mem p hp).2⟩

theorem mapM_cons_eq_some {α β σ : Type} {f : α → StateT σ Option β} {a : α} {l : List α} {bs : List β} {s s' : σ} :
    (a :: l).mapM f s = some (bs, s') ↔
      ∃ b s₁ bs', f a s = some (b, s₁) ∧ l.mapM f s₁ = some (bs', s') ∧ bs = b :: bs' := by
  rw [List.mapM_cons]
  constructor
  · intro h
    obtain ⟨⟨b, s₁⟩, hb, h⟩ := Option.bind_eq_some_iff.mp h
    obtain ⟨⟨bs', s₂⟩, hbs, h⟩ := Option.bind_eq_some_iff.mp h
    obtain ⟨rfl, rfl⟩ := Prod.mk.inj (Option.some.inj h)
    exact ⟨b, s₁, bs', hb, hbs, rfl⟩
  · rintro ⟨b, s₁, bs', hb, hbs, rfl⟩
    exact Option.bind_eq_some_iff.mpr ⟨_, hb, Option.bind_eq_some_iff.mpr ⟨_, hbs, rfl⟩⟩

/-- **A loop**, whose body makes new instructions. -/
theorem forall₂_of_mapM {α β : Type} {f : α → StateT St Option β} {R : α → β → Prop} {new : β → List ℕ} {l : List α}
    {bs : List β} {st st' : St}
    (hf : ∀ a ∈ l, ∀ b st st', f a st = some (b, st') → R a b ∧ NewPtrs (new b) st.next st'.next)
    (h : l.mapM f st = some (bs, st')) : List.Forall₂ R l bs ∧ NewPtrs (bs.flatMap new) st.next st'.next := by
  induction l generalizing st bs with
  | nil =>
    obtain ⟨rfl, rfl⟩ := Prod.mk.inj (Option.some.inj h)
    exact ⟨.nil, .nil⟩
  | cons a l ih =>
    have ⟨hfa, hf⟩ := List.forall_mem_cons.mp hf
    obtain ⟨b, st₁, bs', hb, hbs, rfl⟩ := mapM_cons_eq_some.mp h
    obtain ⟨hR, hnew⟩ := hfa b st st₁ hb
    obtain ⟨hRs, hnews⟩ := ih hf hbs
    rw [List.flatMap_cons]
    exact ⟨.cons hR hRs, hnew.append hnews⟩

/-- What the loop makes of an instruction. -/
inductive Marked (env : Env) (I : Inst) : Replaced → Prop
  | kept : (∀ func args, I.op = .call (some func) args → func ∉ env.wrapFuncNames) → Marked env I ⟨none, I⟩
  | wrapped {func : Str} {args : List Operand} {id : UInt64} {q : ℕ} : I.op = .call (some func) args →
    func ∈ env.wrapFuncNames → getInstId env I = .ok id →
    Marked env I ⟨some (hook q (wrapperName func) (.int id :: args)), I⟩

/-- The functions, and what the loop makes of their instructions. -/
abbrev AllMarked (env : Env) : List Function → List (List (List Replaced)) → Prop :=
  List.Forall₂ fun F rss => List.Forall₂ (List.Forall₂ (Marked env)) F.blocks rss

/-- The address of the new call. -/
def Replaced.new (r : Replaced) : List ℕ := (r.newCall.map Inst.ptr).toList

variable {env : Env} {I : Inst} {r : Replaced} {st st' : St} {N N₁ : ℕ}

theorem Marked.inst_eq (h : Marked env I r) : r.inst = I := by
  cases h <;> rfl

/-- **What the loop makes of an instruction.** -/
theorem marked_of_replaceInst (hother : ∀ f ∈ env.wrapFuncNames, wrapperName f ∉ env.otherNames)
    (h : replaceInst env I st = some (r, st')) : Marked env I r ∧ NewPtrs r.new st.next st'.next := by
  obtain ⟨ptr, op⟩ := I
  have hkept : ∀ {r : Replaced} {st'}, (∀ func args, op = .call (some func) args → func ∉ env.wrapFuncNames) →
      some ((⟨none, ⟨ptr, op⟩⟩ : Replaced), st) = some (r, st') →
        Marked env ⟨ptr, op⟩ r ∧ NewPtrs r.new st.next st'.next := by
    intro r st' hop h
    obtain ⟨rfl, rfl⟩ := Prod.mk.inj (Option.some.inj h)
    exact ⟨.kept hop, .nil⟩
  cases op with
  | load pointer isVolatile => exact hkept (by rintro _ _ ⟨⟩) h
  | store pointer isVolatile => exact hkept (by rintro _ _ ⟨⟩) h
  | bitCast pointer => exact hkept (by rintro _ _ ⟨⟩) h
  | other => exact hkept (by rintro _ _ ⟨⟩) h
  | call func args =>
    match func with
    | none => exact hkept (by rintro _ _ ⟨⟩) h
    | some funcName =>
      have hcall : replaceCall env ⟨ptr, .call (some funcName) args⟩ (some funcName) args st = some (r, st') := h
      unfold replaceCall at hcall
      dsimp only at hcall
      split_ifs at hcall with hwrap hnot hpthread
      · obtain ⟨id, hid, hcall⟩ := Option.bind_eq_some_iff.mp hcall
        rw [createCall_of_not_mem (hother _ (List.contains_iff_mem.mp hwrap))] at hcall
        obtain ⟨rfl, rfl⟩ := Prod.mk.inj (Option.some.inj hcall)
        refine ⟨.wrapped rfl (List.contains_iff_mem.mp hwrap) ?_, Nat.le_succ _, List.nodup_singleton _, ?_⟩
        · cases hget : getInstId env ⟨ptr, .call (some funcName) args⟩ with
          | ok id' =>
            rw [hget] at hid
            exact congrArg _ (Option.some.inj hid)
          | error e =>
            rw [hget] at hid
            cases hid
        · intro p hp
          cases List.mem_singleton.mp hp
          exact ⟨le_rfl, Nat.lt_succ_self _⟩
      · exact hkept (by rintro _ _ ⟨⟩; exact fun h => hwrap (List.contains_iff_mem.mpr h)) hcall
      · exact hkept (by rintro _ _ ⟨⟩; exact fun h => hwrap (List.contains_iff_mem.mpr h)) hcall

/-- **What the loops make of the functions.** -/
theorem marked_of_replaceFunctionCall {functions : List Function} {out : List (List (List Replaced))}
    (hother : ∀ f ∈ env.wrapFuncNames, wrapperName f ∉ env.otherNames)
    (h : replaceFunctionCall env functions st = some (out, st')) :
    AllMarked env functions out ∧
      NewPtrs (out.flatten.flatten.flatMap Replaced.new) st.next st'.next := by
  have hblock : ∀ B : List Inst, ∀ rs st st', B.mapM (replaceInst env) st = some (rs, st') →
      List.Forall₂ (Marked env) B rs ∧ NewPtrs (rs.flatMap Replaced.new) st.next st'.next := fun B rs st st' h =>
    forall₂_of_mapM (fun I _ r st st' h => marked_of_replaceInst hother h) h
  have hfunction : ∀ F : Function, ∀ rss st st',
      F.blocks.mapM (fun B => B.mapM (replaceInst env)) st = some (rss, st') →
      List.Forall₂ (List.Forall₂ (Marked env)) F.blocks rss ∧ NewPtrs (rss.flatMap fun rs => rs.flatMap Replaced.new) st.next st'.next := fun F rss st st' h =>
    forall₂_of_mapM (fun B _ => hblock B) h
  obtain ⟨hR, hnew⟩ := forall₂_of_mapM (fun F _ => hfunction F) h
  refine ⟨hR, ?_⟩
  have hflat : out.flatten.flatten.flatMap Replaced.new =
      out.flatMap fun rss => rss.flatMap fun rs => rs.flatMap Replaced.new := by
    simp only [List.flatten_eq_flatMap, List.flatMap_assoc, id]
  rw [hflat]
  exact hnew

/-! ### What stands for an instruction -/

/-- The calls that are replaced are of the module, whose addresses are below `N`; those of the code are below `N₁`, and
the new calls have addresses from there on. -/
structure Apart (N N₁ : ℕ) (rs : List Replaced) : Prop where
  wrapped : ∀ r ∈ rs, r.newCall.isSome → r.inst.ptr < N
  nodup : ((rs.filter fun r => r.inst.ptr < N).map fun r => r.inst.ptr).Nodup
  old : ∀ r ∈ rs, r.inst.ptr < N₁
  new : ∃ N₂, NewPtrs (rs.flatMap Replaced.new) N₁ N₂

variable {rs : List Replaced} {p p' q : ℕ}

theorem mem_usesOf : (p, q) ∈ usesOf rs ↔
    ∃ r ∈ rs, ∃ newCall, r.newCall = some newCall ∧ r.inst.ptr = p ∧ newCall.ptr = q := by
  simp only [usesOf, List.mem_filterMap, Option.map_eq_some_iff, Prod.mk.injEq]

theorem map_snd_usesOf (rs : List Replaced) : (usesOf rs).map Prod.snd = rs.flatMap Replaced.new := by
  induction rs with
  | nil => rfl
  | cons r rs ih =>
    obtain ⟨newCall, inst⟩ := r
    cases newCall with
    | none => exact ih
    | some newCall => exact congrArg (newCall.ptr :: ·) ih

theorem map_fst_usesOf (h : ∀ r ∈ rs, r.newCall.isSome → r.inst.ptr < N) :
    ((usesOf rs).map Prod.fst).Sublist ((rs.filter fun r => r.inst.ptr < N).map fun r => r.inst.ptr) := by
  induction rs with
  | nil => exact List.Sublist.slnil
  | cons r rs ih =>
    have ⟨hr, hrs⟩ := List.forall_mem_cons.mp h
    obtain ⟨newCall, inst⟩ := r
    cases newCall with
    | none => exact (ih hrs).trans (((List.sublist_cons_self _ rs).filter _).map _)
    | some newCall =>
      rw [List.filter_cons_of_pos (by simpa using hr rfl)]
      exact (ih hrs).cons_cons _

namespace Apart

variable (h : Apart N N₁ rs)
include h

theorem le_of_mem (hq : (p, q) ∈ usesOf rs) : N₁ ≤ q := by
  obtain ⟨N₂, hnew⟩ := h.new
  exact (hnew.mem q (map_snd_usesOf rs ▸ List.mem_map.mpr ⟨_, hq, rfl⟩)).1

theorem lt_of_mem (hp : (p, q) ∈ usesOf rs) : p < N₁ := by
  obtain ⟨r, hr, -, -, rfl, -⟩ := mem_usesOf.mp hp
  exact h.old r hr

theorem useOf_eq_of_mem (hp : (p, q) ∈ usesOf rs) : useOf (usesOf rs) p = q :=
  useOf_eq ((map_fst_usesOf h.wrapped).nodup h.nodup) (fun _ huse _ huse' =>
    ((h.lt_of_mem huse).trans_le (h.le_of_mem huse')).ne) hp

theorem useOf_cases (p : ℕ) : useOf (usesOf rs) p = p ∧ (∀ q, (p, q) ∉ usesOf rs) ∨
    (p, useOf (usesOf rs) p) ∈ usesOf rs := by
  by_cases hp : ∃ q, (p, q) ∈ usesOf rs
  · obtain ⟨q, hq⟩ := hp
    rw [h.useOf_eq_of_mem hq]
    exact Or.inr hq
  · refine Or.inl ⟨useOf_eq_self fun use huse heq => hp ⟨use.2, heq ▸ huse⟩, fun q hq => hp ⟨q, hq⟩⟩

/-- **No two uses become one.** -/
theorem useOf_injOn : Set.InjOn (useOf (usesOf rs)) {p | p < N₁} := by
  intro p hp p' hp' heq
  have hold : ∀ {p}, p < N₁ → ∀ {p'}, (p', p) ∉ usesOf rs := fun hp _ hmem => (h.le_of_mem hmem).not_gt hp
  obtain ⟨hself, -⟩ | hmem := h.useOf_cases p
  · obtain ⟨hself', -⟩ | hmem' := h.useOf_cases p'
    · rw [hself, hself'] at heq
      exact heq
    · rw [← heq, hself] at hmem'
      exact absurd hmem' (hold hp)
  · obtain ⟨hself', -⟩ | hmem' := h.useOf_cases p'
    · rw [heq, hself'] at hmem
      exact absurd hmem (hold hp')
    · obtain ⟨N₂, hnew⟩ := h.new
      have hnodup : ((usesOf rs).map Prod.snd).Nodup := map_snd_usesOf rs ▸ hnew.nodup
      exact (Prod.mk.inj (List.inj_on_of_nodup_map hnodup hmem hmem' heq)).1

/-- An instruction that is kept keeps its uses. -/
theorem useOf_eq_of_kept (hr : r ∈ rs) (hkept : r.newCall = none) : useOf (usesOf rs) r.inst.ptr = r.inst.ptr := by
  obtain ⟨hself, -⟩ | hmem := h.useOf_cases r.inst.ptr
  · exact hself
  · obtain ⟨r', hr', newCall, hnew, hptr, -⟩ := mem_usesOf.mp hmem
    have hlt := h.wrapped r' hr' (by rw [hnew]; rfl)
    have hfilter' : r' ∈ rs.filter fun r => r.inst.ptr < N := List.mem_filter.mpr ⟨hr', by simpa using hlt⟩
    have hfilter : r ∈ rs.filter fun r => r.inst.ptr < N := List.mem_filter.mpr ⟨hr, by simpa using hptr ▸ hlt⟩
    rw [List.inj_on_of_nodup_map h.nodup hfilter' hfilter hptr, hkept] at hnew
    cases hnew

end Apart

/-- An instruction and what stands for it at the end, when the uses have become what `f` says. -/
inductive Stands (env : Env) (f : ℕ → ℕ) (I : Inst) : Inst → Prop
  | kept : (∀ func args, I.op = .call (some func) args → func ∉ env.wrapFuncNames) → f I.ptr = I.ptr →
    Stands env f I ⟨I.ptr, I.op.replaceUses f⟩
  | wrapped {func : Str} {args : List Operand} {id : UInt64} : I.op = .call (some func) args →
    func ∈ env.wrapFuncNames →
    Stands env f I ⟨f I.ptr, .call (some (wrapperName func)) (.int id :: args.map (·.replaceUse f))⟩

/-- **What stands for an instruction.** -/
theorem Marked.stands (h : Marked env I r) (hapart : Apart N N₁ rs) (hr : r ∈ rs) :
    Stands env (useOf (usesOf rs)) I (r.left (useOf (usesOf rs))) := by
  cases h with
  | kept hop => exact .kept hop (hapart.useOf_eq_of_kept hr rfl)
  | @wrapped func args id q hop hwrap hid =>
    have huse : useOf (usesOf rs) I.ptr = q := hapart.useOf_eq_of_mem (mem_usesOf.mpr ⟨_, hr, _, rfl, rfl, rfl⟩)
    have hleft : (⟨some (hook q (wrapperName func) (.int id :: args)), I⟩ : Replaced).left (useOf (usesOf rs)) =
        ⟨useOf (usesOf rs) I.ptr, .call (some (wrapperName func))
          (.int id :: args.map (·.replaceUse (useOf (usesOf rs))))⟩ := by
      rw [huse]
      rfl
    rw [hleft]
    exact .wrapped hop hwrap

end Instrument

end Schnauzer
