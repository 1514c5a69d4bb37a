import Mathlib.Algebra.Ring.Nat
import Mathlib.Data.Int.Basic
import Mathlib.Tactic.SplitIfs
import Mathlib.Tactic.IntervalCases

/-!
# Ids of instructions

`llvm/instrument/CollectSrcInfo`: the number of a module and the number of an instruction in it, packed into
64 bits. The number of the module is shifted by 44 bits, while the number of the instruction may have 45, and 20 of them
are decoded.

## What is proved

* `toNat_of_computeUniqueId` — the value that is packed.
* `computeModId_iff`, `computeInstId_iff`, `signClear_iff`, `unshared_iff` — for which pairs each part of a faithful
  encoding holds.
* `faithfulId_iff` — for which pairs the encoding is faithful.
-/

namespace Schnauzer

namespace Instrument

/-- `Instrument::computeUniqueId`; `none` where an `assert` fails. -/
def computeUniqueId (modId id : UInt64) : Option UInt64 :=
  let newId : UInt64 := 0
  if modId ≤ ((1 : UInt64) <<< 20) - 1 ∧ id ≤ ((1 : UInt64) <<< 45) - 1 then
    let newId := newId ||| (modId <<< 44)
    let newId := newId ||| id
    some newId
  else none

/-- `Instrument::computeModId`. -/
def computeModId (id : UInt64) : UInt64 := (id >>> 44) &&& 0xFFFFF

/-- `Instrument::computeInstId`. -/
def computeInstId (id : UInt64) : UInt64 := id &&& 0xFFFFF

/-- The bit that is the sign of the key in the database. -/
def signBit (id : UInt64) : Bool := id.toBitVec.msb

/-- The id of a module and an instruction in it is faithful: it is decoded to them, no other module and instruction have
it, and it is a key that is not negative. -/
structure FaithfulId (modId id : UInt64) : Prop where
  decodesMod : (computeUniqueId modId id).map computeModId = some modId
  decodesInst : (computeUniqueId modId id).map computeInstId = some id
  unshared : ∀ modId' id', computeUniqueId modId' id' = computeUniqueId modId id → modId' = modId ∧ id' = id
  sign : (computeUniqueId modId id).map signBit = some false

variable {m i m' i' u : UInt64}

/-! ### The bits -/

/-- An `or` with one bit at most. -/
theorem or_bit {a b : ℕ} (hb : b < 2) : a ||| b = if b = 1 ∧ a % 2 = 0 then a + 1 else a := by
  have hdiv : (a ||| b) / 2 = a / 2 := by
    rw [Nat.or_div_two, Nat.div_eq_of_lt hb, Nat.or_zero]
  have hmod : (a ||| b) % 2 = a % 2 ||| b % 2 := by
    simpa using Nat.or_mod_two_pow (n := 1) (a := a) (b := b)
  have ha : a % 2 = 0 ∨ a % 2 = 1 := by omega
  interval_cases b
  · simp
  · replace hmod : (a ||| 1) % 2 = 1 := by
      rcases ha with ha | ha
      · rw [hmod, ha]
        rfl
      · rw [hmod, ha]
        rfl
    split_ifs with hcond <;> omega

/-- The two parts overlap in one bit. -/
theorem shiftLeft_or {a b : ℕ} : a <<< 44 ||| b = (a ||| b / 2 ^ 44) * 2 ^ 44 + b % 2 ^ 44 := by
  have hb : b = (b / 2 ^ 44) <<< 44 ||| b % 2 ^ 44 := by
    rw [← Nat.shiftLeft_add_eq_or_of_lt (Nat.mod_lt _ (by decide)), Nat.shiftLeft_eq]
    omega
  rw [← Nat.shiftLeft_eq, Nat.shiftLeft_add_eq_or_of_lt (Nat.mod_lt _ (by decide)), Nat.shiftLeft_or_distrib,
    Nat.or_assoc, ← hb]

/-- The `assert`s. -/
theorem computeUniqueId_eq_some : computeUniqueId m i = some u ↔
    m.toNat < 2 ^ 20 ∧ i.toNat < 2 ^ 45 ∧ u = m <<< 44 ||| i := by
  have hm : m ≤ ((1 : UInt64) <<< 20) - 1 ↔ m.toNat < 2 ^ 20 := by
    rw [UInt64.le_iff_toNat_le]
    exact Nat.lt_succ_iff.symm
  have hi : i ≤ ((1 : UInt64) <<< 45) - 1 ↔ i.toNat < 2 ^ 45 := by
    rw [UInt64.le_iff_toNat_le]
    exact Nat.lt_succ_iff.symm
  simp only [computeUniqueId, hm, hi]
  split_ifs with h
  · rw [Option.some_inj, UInt64.zero_or]
    exact ⟨fun hu => ⟨h.1, h.2, hu.symm⟩, fun hu => hu.2.2.symm⟩
  · simp only [false_iff]
    tauto

/-- **The value that is packed.** -/
theorem toNat_of_computeUniqueId (h : computeUniqueId m i = some u) :
    u.toNat = (m.toNat ||| i.toNat / 2 ^ 44) * 2 ^ 44 + i.toNat % 2 ^ 44 := by
  obtain ⟨hm, hi, rfl⟩ := computeUniqueId_eq_some.mp h
  have hshift : m.toNat <<< 44 < 2 ^ 64 := by
    rw [Nat.shiftLeft_eq]
    omega
  rw [← shiftLeft_or, UInt64.toNat_or, UInt64.toNat_shiftLeft]
  rw [show (44 : UInt64).toNat % 64 = 44 from rfl, Nat.mod_eq_of_lt hshift]

/-- The value, with the bit in which the parts overlap. -/
theorem toNat_eq (h : computeUniqueId m i = some u) : u.toNat = i.toNat % 2 ^ 44 +
    (if i.toNat / 2 ^ 44 = 1 ∧ m.toNat % 2 = 0 then m.toNat + 1 else m.toNat) * 2 ^ 44 := by
  obtain ⟨-, hi, -⟩ := computeUniqueId_eq_some.mp h
  rw [toNat_of_computeUniqueId h, or_bit (by omega), Nat.add_comm]

theorem toNat_computeModId : (computeModId u).toNat = u.toNat / 2 ^ 44 := by
  have hu := u.toNat_lt
  have hmask : (computeModId u).toNat = (u.toNat >>> 44) &&& (2 ^ 20 - 1) := by
    rw [computeModId, UInt64.toNat_and, UInt64.toNat_shiftRight]
    rfl
  rw [hmask, Nat.and_two_pow_sub_one_eq_mod, Nat.shiftRight_eq_div_pow, Nat.mod_eq_of_lt (by omega)]

theorem toNat_computeInstId : (computeInstId u).toNat = u.toNat % 2 ^ 20 := by
  have hmask : (computeInstId u).toNat = u.toNat &&& (2 ^ 20 - 1) := by
    rw [computeInstId, UInt64.toNat_and]
    rfl
  rw [hmask, Nat.and_two_pow_sub_one_eq_mod]

theorem signBit_eq : signBit u = decide (2 ^ 63 ≤ u.toNat) := BitVec.msb_eq_decide u.toBitVec

/-! ### What is faithful -/

section Ranges

variable (hm : m.toNat < 2 ^ 20) (hi : i.toNat < 2 ^ 45)

include hm hi

/-- The `assert`s hold. -/
theorem exists_id : ∃ u, computeUniqueId m i = some u := ⟨_, computeUniqueId_eq_some.mpr ⟨hm, hi, rfl⟩⟩

/-- **The module** is decoded when the two parts do not overlap, or the bit is set anyway. -/
theorem computeModId_iff : (computeUniqueId m i).map computeModId = some m ↔
    i.toNat < 2 ^ 44 ∨ m.toNat % 2 = 1 := by
  obtain ⟨u, hu⟩ := exists_id hm hi
  rw [hu, Option.map_some, Option.some_inj, ← UInt64.toNat_inj, toNat_computeModId, toNat_eq hu]
  split_ifs with h <;> omega

/-- **The instruction** is decoded when it has 20 bits. -/
theorem computeInstId_iff : (computeUniqueId m i).map computeInstId = some i ↔ i.toNat < 2 ^ 20 := by
  obtain ⟨u, hu⟩ := exists_id hm hi
  rw [hu, Option.map_some, Option.some_inj, ← UInt64.toNat_inj, toNat_computeInstId, toNat_eq hu]
  split_ifs with h <;> omega

/-- **The sign bit** is the top bit of the module. -/
theorem signClear_iff : (computeUniqueId m i).map signBit = some false ↔ m.toNat < 2 ^ 19 := by
  obtain ⟨u, hu⟩ := exists_id hm hi
  rw [hu, Option.map_some, Option.some_inj, signBit_eq, decide_eq_false_iff_not, toNat_eq hu]
  split_ifs with h <;> omega

/-- **An id is not shared** when the bit in which the parts overlap is clear. -/
theorem unshared_iff :
    (∀ m' i', computeUniqueId m' i' = computeUniqueId m i → m' = m ∧ i' = i) ↔
      m.toNat % 2 = 0 ∧ i.toNat < 2 ^ 44 := by
  obtain ⟨u, hu⟩ := exists_id hm hi
  -- two pairs with the values of their parts have one id
  have hshare : ∀ a b : ℕ, a < 2 ^ 20 → b < 2 ^ 45 →
      (b % 2 ^ 44 + (if b / 2 ^ 44 = 1 ∧ a % 2 = 0 then a + 1 else a) * 2 ^ 44 = u.toNat) →
        ∃ m' i' : UInt64, m'.toNat = a ∧ i'.toNat = b ∧ computeUniqueId m' i' = some u := by
    intro a b ha hb heq
    have hma : (UInt64.ofNat a).toNat = a := UInt64.toNat_ofNat_of_lt' (by change a < 2 ^ 64; omega)
    have hib : (UInt64.ofNat b).toNat = b := UInt64.toNat_ofNat_of_lt' (by change b < 2 ^ 64; omega)
    obtain ⟨u', hu'⟩ := exists_id (hma.symm ▸ ha) (hib.symm ▸ hb)
    refine ⟨_, _, hma, hib, ?_⟩
    rw [hu', Option.some_inj, ← UInt64.toNat_inj, ← heq, toNat_eq hu', hma, hib]
  have hval := toNat_eq hu
  constructor
  · intro hun
    by_contra hno
    -- the pair with the other number of the instruction, and that with the other module
    obtain ⟨m', i', hm', hi', heq⟩ := hshare (if i.toNat < 2 ^ 44 then m.toNat else m.toNat + 1 - 2 * (m.toNat % 2))
      (if i.toNat < 2 ^ 44 then i.toNat + 2 ^ 44 else i.toNat) (by split_ifs <;> omega) (by split_ifs <;> omega)
      (by rw [hval]; split_ifs <;> omega)
    obtain ⟨rfl, rfl⟩ := hun m' i' (heq.trans hu.symm)
    split_ifs at hm' hi' <;> omega
  · rintro ⟨heven, hlt⟩ m' i' heq
    rw [hu] at heq
    obtain ⟨-, hi', -⟩ := computeUniqueId_eq_some.mp heq
    have hval := (toNat_eq heq).symm.trans (toNat_eq hu)
    rw [← UInt64.toNat_inj, ← UInt64.toNat_inj]
    split_ifs at hval <;> omega

end Ranges

/-- **Where the encoding is faithful**: the module is even and has 19 bits, the instruction has 20. -/
theorem faithfulId_iff (hm : m.toNat ≤ 2 ^ 20 - 1) (hi : i.toNat ≤ 2 ^ 45 - 1) :
    FaithfulId m i ↔ m.toNat < 2 ^ 19 ∧ m.toNat % 2 = 0 ∧ i.toNat < 2 ^ 20 := by
  replace hm : m.toNat < 2 ^ 20 := by omega
  replace hi : i.toNat < 2 ^ 45 := by omega
  constructor
  · rintro ⟨-, hinst, hun, hsign⟩
    exact ⟨(signClear_iff hm hi).mp hsign, ((unshared_iff hm hi).mp hun).1, (computeInstId_iff hm hi).mp hinst⟩
  · rintro ⟨hsign, heven, hlt⟩
    exact ⟨(computeModId_iff hm hi).mpr (Or.inl (by omega)), (computeInstId_iff hm hi).mpr hlt,
      (unshared_iff hm hi).mpr ⟨heven, by omega⟩, (signClear_iff hm hi).mpr hsign⟩

/-- Instruction 7 of module 6. -/
theorem faithfulId_iff_small :
    FaithfulId 6 7 ↔ (6 : UInt64).toNat < 2 ^ 19 ∧ (6 : UInt64).toNat % 2 = 0 ∧ (7 : UInt64).toNat < 2 ^ 20 :=
  faithfulId_iff (by decide) (by decide)

/-- Instruction `2 ^ 20` of module 0 is decoded as instruction 0; the last module has a negative key; instruction 0 of
module 1 has the id of instruction `2 ^ 44` of module 0. -/
theorem unfaithful_ids : ¬ FaithfulId 0 1048576 ∧
    (computeUniqueId 0 1048576).map computeInstId = some 0 ∧
    (computeUniqueId 1048575 0).map signBit = some true ∧
    computeUniqueId 0 17592186044416 = computeUniqueId 1 0 ∧ (computeUniqueId 1 0).isSome := by
  refine ⟨fun h => ?_, by decide, by decide, by decide, by decide⟩
  exact absurd h.decodesInst (by decide)

end Instrument

end Schnauzer
