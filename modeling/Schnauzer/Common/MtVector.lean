import Mathlib.Data.List.Basic
import Mathlib.Logic.Function.Basic
import Mathlib.Order.Nat

/-!
# The vector of blocks

`common/MtVector.h`: values are stored in blocks of `ITEM_SZ`, each linked to the next, and a
block that gets full is given an empty successor at once. Blocks are never freed, so the heap
is the list of the blocks that one vector has allocated and a pointer is a place in it. An
item of a block that was never assigned is `none`. A step answers `none` where an `assert`
fails or memory is used that is not there.

A vector into which `xs` was pushed is `layout xs` (`pushBack_layout`), and an iterator that
has passed `k` values is `iterAt k`, whatever was pushed before or after.

## What is proved

* `mtVector_iterates` — every iterator that was ever obtained goes on with exactly the values
  after its position, however many more are pushed, and no `assert` fails.
-/

namespace Schnauzer

variable {T : Type}

/-- `MtBlock::ITEM_SZ`. -/
def ITEM_SZ : ℕ := 2

theorem ITEM_SZ_pos : 0 < ITEM_SZ := by decide

/-- `MtBlock`. -/
@[ext]
structure MtBlock (T : Type) where
  /-- `item_arr_`. -/
  itemArr : Fin ITEM_SZ → Option T
  /-- `nr_item_`. -/
  nrItem : ℕ
  /-- `next_`. -/
  next : Option ℕ

namespace MtBlock

/-- `new MtBlock()`. -/
def new : MtBlock T := ⟨fun _ => none, 0, none⟩

/-- `MtBlock::full`. -/
def full (blk : MtBlock T) : Bool := blk.nrItem = ITEM_SZ

/-- `MtBlock::push_back`. -/
def pushBack (blk : MtBlock T) (val : T) : Option (MtBlock T) :=
  if blk.full then none
  else if h : blk.nrItem < ITEM_SZ then
    some { blk with itemArr := Function.update blk.itemArr ⟨blk.nrItem, h⟩ (some val)
                    nrItem := blk.nrItem + 1 }
  else none

end MtBlock

/-- `MtVector`, with the blocks it has allocated. -/
@[ext]
structure MtVector (T : Type) where
  /-- The blocks, from the first that was allocated on. -/
  blks : List (MtBlock T)
  /-- `head_blk_`. -/
  headBlk : ℕ
  /-- `curr_blk_`. -/
  currBlk : ℕ

/-- `MtVector::Fiterator`. -/
@[ext]
structure Fiterator where
  /-- `curr_blk_`. -/
  currBlk : ℕ
  /-- `curr_item_pos_`. -/
  currItemPos : ℕ
  deriving DecidableEq

namespace MtVector

/-- `MtVector::MtVector`. -/
def new : MtVector T := ⟨[.new], 0, 0⟩

/-- `MtVector::push_back`. -/
def pushBack (vec : MtVector T) (val : T) : Option (MtVector T) := do
  let blk ← vec.blks[vec.currBlk]?
  let blk ← blk.pushBack val
  if blk.full then
    let next := vec.blks.length
    return { vec with blks := vec.blks.set vec.currBlk { blk with next := some next } ++ [.new]
                      currBlk := next }
  else
    return { vec with blks := vec.blks.set vec.currBlk blk }

/-- `MtVector::begin`. -/
def begin (vec : MtVector T) : Fiterator := ⟨vec.headBlk, 0⟩

/-- `MtVector::end`. -/
def «end» (vec : MtVector T) : Option Fiterator :=
  vec.blks[vec.currBlk]?.map fun blk => ⟨vec.currBlk, blk.nrItem⟩

/-- `Fiterator::operator*`. -/
def deref (vec : MtVector T) (it : Fiterator) : Option T :=
  match vec.blks[it.currBlk]? with
  | some blk => if h : it.currItemPos < ITEM_SZ then blk.itemArr ⟨it.currItemPos, h⟩ else none
  | none => none

/-- `Fiterator::operator++`. -/
def incr (vec : MtVector T) (it : Fiterator) : Option Fiterator :=
  if it.currItemPos + 1 = ITEM_SZ then
    match vec.blks[it.currBlk]? with
    | some blk => blk.next.map fun next => ⟨next, 0⟩
    | none => none
  else some ⟨it.currBlk, it.currItemPos + 1⟩

/-- `for (; it != vec.end(); ++it)`, for at most `fuel` rounds: the values of `*it`. -/
def iterate (vec : MtVector T) : ℕ → Fiterator → Option (List T)
  | 0, _ => none
  | fuel + 1, it => do
    let stop ← vec.end
    if it = stop then return []
    else
      let val ← vec.deref it
      let it ← vec.incr it
      let vals ← vec.iterate fuel it
      return val :: vals

/-- Push the values of a list. -/
def pushAll (vec : MtVector T) : List T → Option (MtVector T)
  | [] => some vec
  | val :: vals => do
    let vec ← vec.pushBack val
    vec.pushAll vals

/-! ### The blocks of a vector -/

/-- Block `b` of a vector into which `xs` was pushed. -/
def blockOf (xs : List T) (b : ℕ) : MtBlock T where
  itemArr := fun i => xs[b * ITEM_SZ + i.val]?
  nrItem := min ITEM_SZ (xs.length - b * ITEM_SZ)
  next := if (b + 1) * ITEM_SZ ≤ xs.length then some (b + 1) else none

/-- The vector into which `xs` was pushed: full blocks, and one that is not full. -/
def layout (xs : List T) : MtVector T where
  blks := (List.range (xs.length / ITEM_SZ + 1)).map (blockOf xs)
  headBlk := 0
  currBlk := xs.length / ITEM_SZ

variable {xs ys : List T} {x : T} {b k : ℕ}

theorem layout_nil : (layout [] : MtVector T) = new := by
  simp [layout, new, blockOf, MtBlock.new, ITEM_SZ]

theorem layout_blks (h : b ≤ xs.length / ITEM_SZ) : (layout xs).blks[b]? = some (blockOf xs b) := by
  simp [layout, Nat.lt_succ_of_le h]

/-- The last block holds what is left over. -/
theorem nrItem_last (xs : List T) :
    (blockOf xs (xs.length / ITEM_SZ)).nrItem = xs.length % ITEM_SZ := by
  have hmod := Nat.mod_lt xs.length ITEM_SZ_pos
  have hdiv := Nat.div_add_mod' xs.length ITEM_SZ
  simp only [blockOf]
  omega

/-- A block that is full does not change any more. -/
theorem blockOf_append (h : (b + 1) * ITEM_SZ ≤ xs.length) : blockOf (xs ++ ys) b = blockOf xs b := by
  have hmul : (b + 1) * ITEM_SZ = b * ITEM_SZ + ITEM_SZ := Nat.succ_mul b ITEM_SZ
  ext i
  · have hi := i.isLt
    simp only [blockOf]
    rw [List.getElem?_append_left (by omega)]
  · simp only [blockOf, List.length_append]
    omega
  · simp only [blockOf, List.length_append, h, Nat.le_add_right_of_le h]

/-- The slot that is written in the last block is the place of the new value. -/
theorem itemArr_push (xs : List T) (x : T) {p : Fin ITEM_SZ} (hp : p.val = xs.length % ITEM_SZ) :
    Function.update (blockOf xs (xs.length / ITEM_SZ)).itemArr p (some x) =
      (blockOf (xs ++ [x]) (xs.length / ITEM_SZ)).itemArr := by
  have hdiv := Nat.div_add_mod' xs.length ITEM_SZ
  funext i
  by_cases hi : i = p
  · rw [hi, Function.update_self]
    simp only [blockOf, hp, hdiv, List.getElem?_concat_length]
  · rw [Function.update_of_ne hi]
    simp only [blockOf]
    have hne : i.val ≠ xs.length % ITEM_SZ := fun h => hi (Fin.ext (h.trans hp.symm))
    rcases Nat.lt_or_gt_of_ne hne with hlt | hgt
    · rw [List.getElem?_append_left (by omega)]
    · have hlen : (xs ++ [x]).length = xs.length + 1 := List.length_append
      rw [List.getElem?_eq_none (by omega), List.getElem?_eq_none (by omega)]

/-- A value goes into the last block, which is not full. -/
theorem pushBack_last (xs : List T) (x : T) :
    (blockOf xs (xs.length / ITEM_SZ)).pushBack x =
      some { blockOf (xs ++ [x]) (xs.length / ITEM_SZ) with next := none } := by
  have hmod : xs.length % ITEM_SZ < ITEM_SZ := Nat.mod_lt xs.length ITEM_SZ_pos
  have hdiv := Nat.div_add_mod' xs.length ITEM_SZ
  have hnr := nrItem_last xs
  have hfull : (blockOf xs (xs.length / ITEM_SZ)).full = false := by
    rw [MtBlock.full, hnr, decide_eq_false hmod.ne]
  rw [MtBlock.pushBack, hfull, dif_pos (hnr ▸ hmod)]
  simp only [Bool.false_eq_true, if_false, Option.some.injEq]
  refine MtBlock.ext (itemArr_push xs x hnr) ?_ ?_
  · simp only [blockOf, List.length_append, List.length_singleton]
    omega
  · simp only [blockOf, Nat.succ_mul]
    rw [if_neg (by omega)]

/-- The full blocks, and the last one. -/
theorem layout_eq (xs : List T) {c : ℕ} (hc : xs.length / ITEM_SZ = c) :
    layout xs = ⟨(List.range c).map (blockOf xs) ++ [blockOf xs c], 0, c⟩ := by
  simp only [layout, hc, List.range_succ, List.map_append, List.map_singleton]

/-- Pushing leaves the full blocks alone. -/
theorem fullBlocks_push (xs : List T) (x : T) :
    (List.range (xs.length / ITEM_SZ)).map (blockOf (xs ++ [x])) =
      (List.range (xs.length / ITEM_SZ)).map (blockOf xs) := by
  refine List.map_congr_left fun b hb => blockOf_append ?_
  exact (Nat.mul_le_mul_right ITEM_SZ (List.mem_range.mp hb)).trans (Nat.div_mul_le_self _ _)

/-- A block that no value has reached is new. -/
theorem blockOf_eq_new (h : xs.length ≤ b * ITEM_SZ) : blockOf xs b = .new := by
  have hpos := ITEM_SZ_pos
  refine MtBlock.ext (funext fun i => List.getElem?_eq_none (by omega)) ?_ ?_
  · simp only [blockOf, MtBlock.new]
    omega
  · simp only [blockOf, MtBlock.new, Nat.succ_mul]
    rw [if_neg (by omega)]

/-- **Pushing**: the value goes to the end, and no `assert` fails. -/
theorem pushBack_layout (xs : List T) (x : T) : (layout xs).pushBack x = some (layout (xs ++ [x])) := by
  have hmod : xs.length % ITEM_SZ < ITEM_SZ := Nat.mod_lt xs.length ITEM_SZ_pos
  have hdiv := Nat.div_add_mod' xs.length ITEM_SZ
  have hlen : (xs ++ [x]).length = xs.length + 1 := List.length_append
  have hmul : (xs.length / ITEM_SZ + 1) * ITEM_SZ = xs.length / ITEM_SZ * ITEM_SZ + ITEM_SZ := Nat.succ_mul _ _
  have hset : ∀ blk, ((List.range (xs.length / ITEM_SZ)).map (blockOf xs) ++
      [blockOf xs (xs.length / ITEM_SZ)]).set (xs.length / ITEM_SZ) blk =
        (List.range (xs.length / ITEM_SZ)).map (blockOf (xs ++ [x])) ++ [blk] := by
    intro blk
    rw [fullBlocks_push, List.set_append_right _ _ (by simp)]
    simp
  have hnr : (blockOf (xs ++ [x]) (xs.length / ITEM_SZ)).nrItem = xs.length % ITEM_SZ + 1 := by
    simp only [blockOf, hlen]
    omega
  rw [pushBack, show (layout xs).currBlk = xs.length / ITEM_SZ from rfl, layout_blks le_rfl]
  simp only [bind, Option.bind, pushBack_last, MtBlock.full, decide_eq_true_eq]
  rw [layout_eq xs rfl]
  simp only [hset]
  split_ifs with hfull <;> rw [hnr] at hfull
  · -- the last block is full: it is given a successor
    have hc : (xs ++ [x]).length / ITEM_SZ = xs.length / ITEM_SZ + 1 :=
      Nat.div_eq_of_lt_le (by omega) (by rw [Nat.succ_mul (_ + 1)]; omega)
    have hnext : (blockOf (xs ++ [x]) (xs.length / ITEM_SZ)).next = some (xs.length / ITEM_SZ + 1) :=
      if_pos (by omega)
    rw [layout_eq _ hc, blockOf_eq_new (b := xs.length / ITEM_SZ + 1) (by omega), List.range_succ,
      List.map_append, List.map_singleton]
    simp only [List.length_append, List.length_map, List.length_range, List.length_singleton, ← hnext]
    rfl
  · have hc : (xs ++ [x]).length / ITEM_SZ = xs.length / ITEM_SZ :=
      Nat.div_eq_of_lt_le (by omega) (by omega)
    have hnext : (blockOf (xs ++ [x]) (xs.length / ITEM_SZ)).next = none := if_neg (by omega)
    rw [layout_eq _ hc, ← hnext]
    rfl

theorem pushAll_layout (xs ys : List T) : (layout xs).pushAll ys = some (layout (xs ++ ys)) := by
  induction ys generalizing xs with
  | nil => rw [pushAll, List.append_nil]
  | cons y ys ih =>
    rw [List.append_cons xs y ys, ← ih (xs ++ [y]), pushAll, pushBack_layout]
    rfl

/-! ### Iterators -/

/-- The iterator that has passed `k` values. -/
def iterAt (k : ℕ) : Fiterator := ⟨k / ITEM_SZ, k % ITEM_SZ⟩

theorem iterAt_injective : Function.Injective iterAt := by
  intro i j h
  simp only [iterAt, Fiterator.mk.injEq] at h
  rw [← Nat.div_add_mod' i ITEM_SZ, ← Nat.div_add_mod' j ITEM_SZ, h.1, h.2]

theorem begin_layout (xs : List T) : (layout xs).begin = iterAt 0 := by
  simp [begin, layout, iterAt]

theorem end_layout (xs : List T) : (layout xs).end = some (iterAt xs.length) := by
  rw [«end», show (layout xs).currBlk = xs.length / ITEM_SZ from rfl, layout_blks le_rfl, Option.map_some,
    nrItem_last, iterAt]

theorem deref_layout (h : k < xs.length) : (layout xs).deref (iterAt k) = some xs[k] := by
  have hmod : (iterAt k).currItemPos < ITEM_SZ := Nat.mod_lt k ITEM_SZ_pos
  have hblk : (layout xs).blks[(iterAt k).currBlk]? = some (blockOf xs (k / ITEM_SZ)) :=
    layout_blks (Nat.div_le_div_right h.le)
  simp only [deref, hblk, dif_pos hmod]
  simp only [blockOf, iterAt, Nat.div_add_mod', List.getElem?_eq_getElem h]

/-- An iterator that is not at the end has a next position: no `assert` fails. -/
theorem incr_layout (h : k < xs.length) : (layout xs).incr (iterAt k) = some (iterAt (k + 1)) := by
  have hmod : k % ITEM_SZ < ITEM_SZ := Nat.mod_lt k ITEM_SZ_pos
  have hdiv := Nat.div_add_mod' k ITEM_SZ
  have hmul : (k / ITEM_SZ + 1) * ITEM_SZ = k / ITEM_SZ * ITEM_SZ + ITEM_SZ := Nat.succ_mul _ _
  have hblk : (layout xs).blks[(iterAt k).currBlk]? = some (blockOf xs (k / ITEM_SZ)) :=
    layout_blks (Nat.div_le_div_right h.le)
  unfold incr
  split_ifs with hlast
  · replace hlast : k % ITEM_SZ + 1 = ITEM_SZ := hlast
    have hnext : (blockOf xs (k / ITEM_SZ)).next = some (k / ITEM_SZ + 1) := if_pos (by omega)
    have hk : k + 1 = (k / ITEM_SZ + 1) * ITEM_SZ := by omega
    simp only [hblk, hnext, Option.map_some]
    simp only [iterAt, hk, Nat.mul_mod_left, Nat.mul_div_cancel _ ITEM_SZ_pos]
  · replace hlast : k % ITEM_SZ + 1 ≠ ITEM_SZ := hlast
    have hk : (k + 1) / ITEM_SZ = k / ITEM_SZ := Nat.div_eq_of_lt_le (by omega) (by omega)
    have hk' := Nat.div_add_mod' (k + 1) ITEM_SZ
    rw [hk] at hk'
    simp only [iterAt, hk, Option.some.injEq, Fiterator.mk.injEq, true_and]
    omega

/-- Iterating from a position visits the values from there on. -/
theorem iterate_layout {fuel : ℕ} (hk : k ≤ xs.length) (hfuel : xs.length < k + fuel) :
    (layout xs).iterate fuel (iterAt k) = some (xs.drop k) := by
  induction fuel generalizing k with
  | zero => omega
  | succ fuel ih =>
    rw [iterate, end_layout]
    rcases hk.eq_or_lt with rfl | hlt
    · simp
    · have hne : iterAt k ≠ iterAt xs.length := fun h => hlt.ne (iterAt_injective h)
      have hrest := ih (k := k + 1) hlt (by omega)
      simp only [Option.bind_eq_bind, Option.bind_some, if_neg hne, deref_layout hlt, incr_layout hlt, hrest,
        List.drop_eq_getElem_cons hlt]
      rfl

/-- `Obtained xs it k`: in a run that has pushed `xs` so far, `it` can have been obtained, and
the values before its position are `k`. -/
inductive Obtained : List T → Fiterator → ℕ → Prop where
  /-- By `begin`. -/
  | begin {xs : List T} {vec : MtVector T} (h : new.pushAll xs = some vec) : Obtained xs vec.begin 0
  /-- By `end`. -/
  | «end» {xs : List T} {vec : MtVector T} {it : Fiterator} (h : new.pushAll xs = some vec)
      (he : vec.end = some it) : Obtained xs it xs.length
  /-- By `++`, away from the end. -/
  | incr {xs : List T} {vec : MtVector T} {it it' : Fiterator} {k : ℕ} (h : new.pushAll xs = some vec)
      (hit : Obtained xs it k) (he : vec.end ≠ some it) (hincr : vec.incr it = some it') :
      Obtained xs it' (k + 1)
  /-- Before one more value was pushed. -/
  | push {xs : List T} {x : T} {it : Fiterator} {k : ℕ} (hit : Obtained xs it k) :
      Obtained (xs ++ [x]) it k

theorem pushAll_new (xs : List T) : new.pushAll xs = some (layout xs) := by
  rw [← layout_nil, pushAll_layout, List.nil_append]

/-- Every iterator is at its position. -/
theorem Obtained.eq_iterAt {it : Fiterator} (h : Obtained xs it k) : it = iterAt k ∧ k ≤ xs.length := by
  induction h with
  | @begin xs vec h =>
    obtain rfl := Option.some_inj.mp (h.symm.trans (pushAll_new xs))
    exact ⟨begin_layout xs, Nat.zero_le _⟩
  | @«end» xs vec it h he =>
    obtain rfl := Option.some_inj.mp (h.symm.trans (pushAll_new xs))
    exact ⟨Option.some_inj.mp (he.symm.trans (end_layout xs)), le_rfl⟩
  | @incr xs vec it it' k h _ he hincr ih =>
    obtain rfl := Option.some_inj.mp (h.symm.trans (pushAll_new xs))
    obtain ⟨rfl, hk⟩ := ih
    have hlt : k < xs.length := by
      apply hk.lt_of_ne
      rintro rfl
      exact he (end_layout xs)
    exact ⟨Option.some_inj.mp (hincr.symm.trans (incr_layout hlt)), hlt⟩
  | push _ ih => exact ⟨ih.1, by rw [List.length_append]; omega⟩

end MtVector

open MtVector

/-- **Iterators**: whatever was pushed, no `assert` fails and iterating from `begin` to `end` visits
what was pushed. An iterator that was obtained on the way can be advanced after any more values were
pushed, unless it is at the end, and goes on with exactly the values after its position. -/
theorem mtVector_iterates (xs : List T) :
    ∃ vec, MtVector.new.pushAll xs = some vec ∧
      (∀ fuel, xs.length < fuel → vec.iterate fuel vec.begin = some xs) ∧
      ∀ it k, Obtained xs it k → k ≤ xs.length ∧
        ∀ ys, ∃ vec', vec.pushAll ys = some vec' ∧
          (vec'.end ≠ some it → ∃ it', vec'.incr it = some it') ∧
          ∀ fuel, (xs ++ ys).length < k + fuel → vec'.iterate fuel it = some ((xs ++ ys).drop k) := by
  refine ⟨layout xs, pushAll_new xs, fun fuel hfuel => ?_, fun it k hit => ?_⟩
  · rw [begin_layout]
    exact iterate_layout (Nat.zero_le _) (by omega)
  · obtain ⟨rfl, hk⟩ := hit.eq_iterAt
    refine ⟨hk, fun ys => ⟨_, pushAll_layout xs ys, fun he => ?_, fun fuel hfuel => ?_⟩⟩
    · have hne : k ≠ (xs ++ ys).length := by
        rintro rfl
        exact he (end_layout _)
      have hle : k ≤ (xs ++ ys).length := hk.trans (by simp)
      exact ⟨_, incr_layout (hle.lt_of_ne hne)⟩
    · exact iterate_layout (hk.trans (by simp)) hfuel

/-- The end of a vector whose block has just become full, and one more value. -/
theorem mtVector_iterates_boundary :
    ∃ vec vec', MtVector.new.pushAll [1, 2] = some vec ∧ vec.end = some ⟨1, 0⟩ ∧
      vec.pushAll [3] = some vec' ∧ vec'.iterate 2 ⟨1, 0⟩ = some [3] := by
  obtain ⟨vec, hvec, -, h⟩ := mtVector_iterates [1, 2]
  have hend : vec.end = some ⟨1, 0⟩ := by
    obtain rfl := Option.some_inj.mp (hvec.symm.trans (pushAll_new [1, 2]))
    rfl
  obtain ⟨-, hmore⟩ := h ⟨1, 0⟩ 2 (.end hvec hend)
  obtain ⟨vec', hvec', -, hit⟩ := hmore [3]
  exact ⟨vec, vec', hvec, hend, hvec', hit 2 (by decide)⟩

end Schnauzer
