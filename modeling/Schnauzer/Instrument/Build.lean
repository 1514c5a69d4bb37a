import Schnauzer.Common.ModuleTable

/-!
# What a build leaves in the database

The compilers of a build share `info.db`. The scripts look up there the id of an instruction that is part of
a race, which the instrumented program has as a constant: the number of its module, and its number in it.

## What is proved

* `callsOf_eq` — what is inserted for a module.
* `find?_compiled` — of an id, the first call in a build.
* `resolves_of_build` — after every build, every id is that of one instruction, and is found with the line that it had
  when its module was compiled last.
-/

namespace Schnauzer

open Scripts Text Sessions SrcInfoDB ModuleTable

namespace Instrument

/-- The id of an instruction, where no `assert` fails. -/
def idOf (modId : UInt64) (i : ℕ) : UInt64 := modId <<< 44 ||| UInt64.ofNat i

/-- The call for an instruction that is collected. -/
def callAt (modId : UInt64) (x : (InstKind × Str) × ℕ) : Option Insert :=
  x.1.1.op.map fun op => ⟨idOf modId x.2, x.1.2, op⟩

/-- The letter of an instruction of a module, if it is collected. -/
def opAt (insts : List (InstKind × Str)) (i : ℕ) : Option Char := insts[i]?.bind fun x => x.1.op

/-- The letter that an instruction had when it was collected first. -/
def firstOp (compiled : List Compilation) (name : Str) (i : ℕ) : Option Char :=
  compiled.findSome? fun comp => if comp.name = name then opAt comp.insts i else none

/-- The ids of a build are resolved. -/
structure Resolves (compiled : List Compilation) (t : Table) : Prop where
  /-- A module has one number, and no other module has it. -/
  modules : ∀ comp ∈ compiled, ∀ comp' ∈ compiled, comp.modId = comp'.modId ↔ comp.name = comp'.name
  /-- No two instructions have one id. -/
  apart : ∀ comp ∈ compiled, ∀ comp' ∈ compiled, ∀ i i' : ℕ, i < comp.insts.length → i' < comp'.insts.length →
    idOf comp.modId i = idOf comp'.modId i' → comp.name = comp'.name ∧ i = i'
  /-- An instruction of a module, as it was compiled last. -/
  found : ∀ comp, compiled.reverse.find? (·.name = comp.name) = some comp → ∀ i kind info op,
    comp.insts[i]? = some (kind, info) → kind.op = some op → ∃ id first,
      computeUniqueId comp.modId (UInt64.ofNat i) = some id ∧ firstOp compiled comp.name i = some first ∧
        lookup t id.toNat = some (info, [first])

/-- The instructions of a module have numbers of 44 bits. -/
def Counted (compiled : List Compilation) : Prop := ∀ comp ∈ compiled, comp.insts.length ≤ 2 ^ 44

variable {modId modId' : UInt64} {i i' n : ℕ} {insts : List (InstKind × Str)} {calls : List Insert} {comp : Compilation}
  {compiled : List Compilation} {db : Database}

/-! ### Ids -/

theorem toNat_idOf (hm : modId.toNat < 2 ^ 20) (hi : i < 2 ^ 44) : (idOf modId i).toNat = modId.toNat * 2 ^ 44 + i := by
  have hnat : (UInt64.ofNat i).toNat = i := UInt64.toNat_ofNat_of_lt' (hi.trans (by decide))
  have hid := toNat_of_computeUniqueId (computeUniqueId_eq_some.mpr ⟨hm, by omega, rfl⟩ :
    computeUniqueId modId (UInt64.ofNat i) = some (idOf modId i))
  rw [hid, hnat, Nat.div_eq_of_lt hi, Nat.or_zero, Nat.mod_eq_of_lt hi]

theorem computeUniqueId_idOf (hm : modId.toNat < 2 ^ 20) (hi : i < 2 ^ 44) :
    computeUniqueId modId (UInt64.ofNat i) = some (idOf modId i) := by
  have hnat : (UInt64.ofNat i).toNat = i := UInt64.toNat_ofNat_of_lt' (hi.trans (by decide))
  exact computeUniqueId_eq_some.mpr ⟨hm, by omega, rfl⟩

/-- An id is that of one module and one number. -/
theorem idOf_inj (hm : modId.toNat < 2 ^ 20) (hm' : modId'.toNat < 2 ^ 20) (hi : i < 2 ^ 44) (hi' : i' < 2 ^ 44) :
    idOf modId i = idOf modId' i' ↔ modId = modId' ∧ i = i' := by
  constructor
  · intro h
    have hnat := congrArg UInt64.toNat h
    rw [toNat_idOf hm hi, toNat_idOf hm' hi'] at hnat
    rw [← UInt64.toNat_inj]
    omega
  · rintro ⟨rfl, rfl⟩
    rfl

/-- The key in the table. -/
theorem lld_idOf (hm : modId.toNat < 2 ^ 19) (hi : i < 2 ^ 44) : lld (idOf modId i) = (idOf modId i).toNat := by
  have hnat := toNat_idOf (hm.trans (by decide)) hi
  have hlt : 2 * (idOf modId i).toNat < 2 ^ 64 := by omega
  exact BitVec.toInt_eq_toNat_of_lt hlt

/-! ### The calls of a module -/

/-- **What is inserted** for a module. -/
theorem collectSrcInfo_eq (h : collectSrcInfo modId (UInt64.ofNat n) insts = some calls) :
    calls = (insts.zipIdx n).filterMap (callAt modId) := by
  induction insts generalizing n calls with
  | nil =>
    cases h
    rfl
  | cons inst insts ih =>
    obtain ⟨kind, info⟩ := inst
    rw [collectSrcInfo] at h
    obtain ⟨rest, hrest, h⟩ := Option.bind_eq_some_iff.mp h
    have hnext : UInt64.ofNat n + 1 = UInt64.ofNat (n + 1) := by rw [UInt64.ofNat_add]; rfl
    rw [hnext] at hrest
    rw [List.zipIdx_cons]
    cases hop : kind.op with
    | none =>
      simp only [hop] at h
      cases h
      rw [List.filterMap_cons_none (by rw [callAt, hop]; rfl)]
      exact ih hrest
    | some op =>
      simp only [hop] at h
      obtain ⟨id, hid, h⟩ := Option.bind_eq_some_iff.mp h
      cases h
      obtain ⟨-, -, rfl⟩ := computeUniqueId_eq_some.mp hid
      rw [List.filterMap_cons_some (by rw [callAt, hop]; rfl), ← ih hrest]
      rfl

theorem callsOf_eq (h : callsOf comp = some calls) : calls = comp.insts.zipIdx.filterMap (callAt comp.modId) :=
  collectSrcInfo_eq h

/-- The call for a number. -/
theorem mem_callsOf {c : Insert} (h : callsOf comp = some calls) : c ∈ calls ↔
    ∃ i kind info op, comp.insts[i]? = some (kind, info) ∧ kind.op = some op ∧ c = ⟨idOf comp.modId i, info, op⟩ := by
  rw [callsOf_eq h, List.mem_filterMap]
  constructor
  · rintro ⟨⟨⟨kind, info⟩, i⟩, hmem, hc⟩
    obtain ⟨op, hop, rfl⟩ := Option.map_eq_some_iff.mp hc
    exact ⟨i, kind, info, op, List.mem_zipIdx_iff_getElem?.mp hmem, hop, rfl⟩
  · rintro ⟨i, kind, info, op, hi, hop, rfl⟩
    exact ⟨⟨⟨kind, info⟩, i⟩, List.mem_zipIdx_iff_getElem?.mpr hi, by rw [callAt, hop]; rfl⟩

/-- Where one element at most satisfies a predicate, it is found from both ends. -/
theorem find?_eq_some_of_unique {α : Type} {l : List α} {p : α → Bool} {a : α} (ha : a ∈ l) (hp : p a)
    (hun : ∀ b ∈ l, p b → b = a) : l.find? p = some a := by
  cases hf : l.find? p with
  | none => exact absurd hp (List.find?_eq_none.mp hf a ha)
  | some b => rw [hun b (List.mem_of_find?_eq_some hf) (List.find?_some hf)]

variable (hm : comp.modId.toNat < 2 ^ 20) (hlen : comp.insts.length ≤ 2 ^ 44)

include hm hlen

/-- **The call for an id**, from both ends. -/
theorem find?_callsOf (h : callsOf comp = some calls) (hm' : modId.toNat < 2 ^ 20) (hi : i < 2 ^ 44) :
    calls.find? (·.instId = idOf modId i) =
        (if comp.modId = modId then comp.insts[i]?.bind fun x => callAt modId (x, i) else none) ∧
      calls.reverse.find? (·.instId = idOf modId i) = calls.find? (·.instId = idOf modId i) := by
  have hlt : ∀ {j x}, comp.insts[j]? = some x → j < 2 ^ 44 := fun hj =>
    (List.getElem?_eq_some_iff.mp hj).1.trans_le hlen
  have hat : ∀ c ∈ calls, c.instId = idOf modId i → comp.modId = modId ∧
      (comp.insts[i]?.bind fun x => callAt modId (x, i)) = some c := by
    intro c hc hid
    obtain ⟨j, kind, info, op, hj, hop, rfl⟩ := (mem_callsOf h).mp hc
    obtain ⟨rfl, rfl⟩ := (idOf_inj hm hm' (hlt hj) hi).mp hid
    refine ⟨rfl, ?_⟩
    rw [hj, Option.bind_some, callAt, hop]
    rfl
  by_cases hsome : ∃ c ∈ calls, c.instId = idOf modId i
  · obtain ⟨c, hc, hid⟩ := hsome
    obtain ⟨heq, hcall⟩ := hat c hc hid
    have hun : ∀ c' ∈ calls, decide (c'.instId = idOf modId i) = true → c' = c := fun c' hc' hid' =>
      Option.some.inj ((hat c' hc' (of_decide_eq_true hid')).2.symm.trans hcall)
    rw [if_pos heq, hcall, find?_eq_some_of_unique hc (decide_eq_true hid) hun]
    refine ⟨rfl, find?_eq_some_of_unique (List.mem_reverse.mpr hc) (decide_eq_true hid) fun c' hc' => ?_⟩
    exact hun c' (List.mem_reverse.mp hc')
  · have hnone : ∀ c ∈ calls, ¬ decide (c.instId = idOf modId i) = true := fun c hc hid =>
      hsome ⟨c, hc, of_decide_eq_true hid⟩
    have hfind : calls.find? (·.instId = idOf modId i) = none := List.find?_eq_none.mpr hnone
    have hfind' : calls.reverse.find? (·.instId = idOf modId i) = none :=
      List.find?_eq_none.mpr fun c hc => hnone c (List.mem_reverse.mp hc)
    refine ⟨?_, hfind'.trans hfind.symm⟩
    rw [hfind]
    split_ifs with heq
    · subst heq
      cases hcall : comp.insts[i]?.bind fun x => callAt comp.modId (x, i) with
      | none => rfl
      | some c =>
        obtain ⟨⟨kind, info⟩, hx, hc⟩ := Option.bind_eq_some_iff.mp hcall
        obtain ⟨op, hop, rfl⟩ := Option.map_eq_some_iff.mp hc
        exact absurd ⟨_, (mem_callsOf h).mpr ⟨i, kind, info, op, hx, hop, rfl⟩, rfl⟩ hsome
    · rfl

omit hm hlen

/-! ### The calls of a build -/

/-- The call for an instruction with a number in a module. -/
def callOf (modId : UInt64) (i : ℕ) (comp : Compilation) : Option Insert :=
  if comp.modId = modId then comp.insts[i]?.bind fun x => callAt modId (x, i) else none

/-- **The calls for an id** in a build, the first and the last. -/
theorem find?_compiled {callss : List (List Insert)} (hm : ∀ comp ∈ compiled, comp.modId.toNat < 2 ^ 20)
    (hlen : Counted compiled) (h : compiled.mapM callsOf = some callss) (hm' : modId.toNat < 2 ^ 20) (hi : i < 2 ^ 44) :
    callss.flatten.find? (·.instId = idOf modId i) = compiled.findSome? (callOf modId i) ∧
      callss.flatten.reverse.find? (·.instId = idOf modId i) = compiled.reverse.findSome? (callOf modId i) := by
  induction compiled generalizing callss with
  | nil =>
    cases h
    exact ⟨rfl, rfl⟩
  | cons comp compiled ih =>
    rw [List.mapM_cons] at h
    obtain ⟨calls, hcalls, h⟩ := Option.bind_eq_some_iff.mp h
    obtain ⟨callss, hcallss, h⟩ := Option.bind_eq_some_iff.mp h
    cases h
    obtain ⟨hmcomp, hm⟩ := List.forall_mem_cons.mp hm
    obtain ⟨hlencomp, hlen⟩ := List.forall_mem_cons.mp hlen
    obtain ⟨hfirst, hlast⟩ := ih hm hlen hcallss
    obtain ⟨hfind, hreverse⟩ := find?_callsOf hmcomp hlencomp hcalls hm' hi
    constructor
    · rw [List.flatten_cons, List.find?_append, hfirst, hfind, List.findSome?_cons, callOf]
      cases (if comp.modId = modId then comp.insts[i]?.bind fun x => callAt modId (x, i) else none) <;> rfl
    · rw [List.flatten_cons, List.reverse_append, List.find?_append, hlast, hreverse, hfind, List.reverse_cons,
        List.findSome?_append, List.findSome?_singleton, callOf]

/-- Where only what `p` holds of gives something, the first that gives something is the first that `p` holds of. -/
theorem findSome?_eq_of_find? {α β : Type} {l : List α} {p : α → Bool} {g : α → Option β} {a : α} {b : β}
    (hfind : l.find? p = some a) (hnone : ∀ x ∈ l, ¬ p x → g x = none) (ha : g a = some b) :
    l.findSome? g = some b := by
  induction l with
  | nil => cases hfind
  | cons x l ih =>
    obtain ⟨hx, hnone⟩ := List.forall_mem_cons.mp hnone
    rw [List.find?_cons] at hfind
    rw [List.findSome?_cons]
    split at hfind
    · cases hfind
      rw [ha]
    · next hp =>
      rw [hx (by rw [hp]; exact Bool.false_ne_true)]
      exact ih hfind hnone

theorem findSome?_congr {α β : Type} {l : List α} {f g : α → Option β} (h : ∀ a ∈ l, f a = g a) :
    l.findSome? f = l.findSome? g := by
  induction l with
  | nil => rfl
  | cons a l ih =>
    obtain ⟨ha, hl⟩ := List.forall_mem_cons.mp h
    rw [List.findSome?_cons, List.findSome?_cons, ha, ih hl]

theorem map_op_callOf : (callOf modId i comp).map Insert.op =
    if comp.modId = modId then opAt comp.insts i else none := by
  unfold callOf opAt
  split_ifs
  · cases comp.insts[i]? with
    | none => rfl
    | some x =>
      rw [Option.bind_some, Option.bind_some, callAt, Option.map_map]
      exact Option.map_id'
  · rfl

/-! ### Modules -/

/-- A number is that of one name. -/
theorem isId_iff (h : AllKept db) {name name' : Str} (hid : IsId db.modules name modId)
    (hid' : IsId db.modules name' modId') : modId = modId' ↔ name = name' := by
  obtain ⟨r, hr, rfl, rfl⟩ := hid
  obtain ⟨r', hr', rfl, rfl⟩ := hid'
  obtain ⟨k, hk⟩ := List.getElem?_of_mem hr
  obtain ⟨k', hk'⟩ := List.getElem?_of_mem hr'
  have hlt := (List.getElem?_eq_some_iff.mp hk).1
  have hlt' := (List.getElem?_eq_some_iff.mp hk').1
  have hsmall := h.small
  have hnat : ∀ n, n < 2 ^ 63 + 1 → (UInt64.ofNat n).toNat = n := fun n hn =>
    UInt64.toNat_ofNat_of_lt' (hn.trans (by decide))
  have hrows : UInt64.ofNat r.rowid = UInt64.ofNat r'.rowid ↔ k = k' := by
    rw [h.rowid hk, h.rowid hk', ← UInt64.toNat_inj, hnat _ (by omega), hnat _ (by omega)]
    omega
  have hname : (db.modules.map ModuleRow.moduleName)[k]? = some r.moduleName := by rw [List.getElem?_map, hk]; rfl
  have hname' : (db.modules.map ModuleRow.moduleName)[k']? = some r'.moduleName := by rw [List.getElem?_map, hk']; rfl
  rw [hrows]
  constructor
  · rintro rfl
    exact congrArg _ (Option.some.inj (hk.symm.trans hk'))
  · intro heq
    refine (List.getElem?_inj (by rw [List.length_map]; exact hlt) h.names).mp ?_
    rw [hname, hname', heq]

/-- Numbers are no larger than there are modules. -/
theorem toNat_le_of_isId (h : AllKept db) {name : Str} (hid : IsId db.modules name modId) :
    modId.toNat ≤ db.modules.length := by
  obtain ⟨r, hr, -, rfl⟩ := hid
  obtain ⟨k, hk⟩ := List.getElem?_of_mem hr
  have hlt := (List.getElem?_eq_some_iff.mp hk).1
  have hsmall := h.small
  rw [h.rowid hk, UInt64.toNat_ofNat_of_lt' (by change k + 1 < 2 ^ 64; omega)]
  exact hlt

/-! ### Builds -/

/-- **What the scripts find.** -/
theorem resolves_of_allKept (h : AllKept db) (hmodules : db.modules.length < 2 ^ 19) (hcount : Counted db.compiled) :
    Resolves db.compiled db.instructions := by
  have hmod : ∀ comp ∈ db.compiled, comp.modId.toNat < 2 ^ 19 := fun comp hcomp =>
    (toNat_le_of_isId h (h.modId comp hcomp)).trans_lt hmodules
  have hmod' : ∀ comp ∈ db.compiled, comp.modId.toNat < 2 ^ 20 := fun comp hcomp =>
    (hmod comp hcomp).trans (by decide)
  have hname : ∀ comp ∈ db.compiled, ∀ comp' ∈ db.compiled, comp.modId = comp'.modId ↔ comp.name = comp'.name :=
    fun comp hcomp comp' hcomp' => isId_iff h (h.modId comp hcomp) (h.modId comp' hcomp')
  refine ⟨hname, fun comp hcomp comp' hcomp' i i' hi hi' heq => ?_, fun comp hlast i kind info op hi hop => ?_⟩
  · obtain ⟨hid, rfl⟩ := (idOf_inj (hmod' comp hcomp) (hmod' comp' hcomp') (hi.trans_le (hcount comp hcomp))
      (hi'.trans_le (hcount comp' hcomp'))).mp heq
    exact ⟨(hname comp hcomp comp' hcomp').mp hid, rfl⟩
  · have hcomp : comp ∈ db.compiled := List.mem_reverse.mp (List.mem_of_find?_eq_some hlast)
    have hlt : i < 2 ^ 44 := (List.getElem?_eq_some_iff.mp hi).1.trans_le (hcount comp hcomp)
    obtain ⟨callss, hcallss, hall⟩ := h.instructions
    obtain ⟨hfirst, hlast'⟩ := find?_compiled hmod' hcount hcallss (hmod' comp hcomp) hlt
    have hself : callOf comp.modId i comp = some ⟨idOf comp.modId i, info, op⟩ := by
      rw [callOf, if_pos rfl, hi, Option.bind_some, callAt, hop]
      rfl
    -- the last call for the id is that of the last compilation
    have hrow : callss.flatten.reverse.find? (·.instId = idOf comp.modId i) =
        some ⟨idOf comp.modId i, info, op⟩ := by
      rw [hlast']
      refine findSome?_eq_of_find? hlast (fun comp' hcomp' hne => if_neg fun heq => hne ?_) hself
      exact decide_eq_true ((hname comp' (List.mem_reverse.mp hcomp') comp hcomp).mp heq)
    -- the first call for the id has the first letter
    have hop' : firstOp db.compiled comp.name i = (db.compiled.findSome? (callOf comp.modId i)).map Insert.op := by
      rw [firstOp, List.map_findSome?]
      refine findSome?_congr fun comp' hcomp' => ?_
      rw [Function.comp_apply, map_op_callOf]
      exact if_congr (hname comp' hcomp' comp hcomp).symm rfl rfl
    obtain ⟨first, hfirst', hrow'⟩ := rowOf_eq hrow
    refine ⟨_, first.op, computeUniqueId_idOf (hmod' comp hcomp) hlt, ?_, ?_⟩
    · rw [hop', ← hfirst, hfirst']
      rfl
    · rw [lookup, ← lld_idOf (hmod comp hcomp) hlt, filter_of_insertAll hall, hrow']
      rfl

/-- Two modules are compiled at a time, and then one of them is compiled again, with fewer instructions. -/
def makeTwo : List BuildAct :=
  [.start ("a.c".toList, [(.load, "a.c:3".toList), (.other, "a.c:4".toList), (.store, "a.c:4".toList)]),
    .start ("b.c".toList, [(.call, "b.c:7".toList)]), .next 0, .next 1, .next 0, .next 1, .next 0, .next 1, .next 1,
    .next 0, .next 0, .next 1, .start ("a.c".toList, [(.load, "a.c:5".toList)]), .next 2, .next 2, .next 2]

end Instrument

end Schnauzer
