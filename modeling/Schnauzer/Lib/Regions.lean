import Schnauzer.Lib.LittleEndian
import Mathlib.Logic.Function.Basic
import Mathlib.Order.Nat

/-!
# Memory of regions

Memory as the regions that were allocated so far, each of a fixed size, with a pointer as a
region and an offset in it. A store outside of its region is refused. Words are stored as
bytes, the lowest first.

## What is proved

* `Memory.byte_write`, `Memory.byte_write_of_apart` — what a store changes and what it leaves alone.
* `Memory.word_write` — a word that was stored is read back.
-/

namespace Regions

/-- A place in memory. -/
structure Ptr where
  /-- The region. -/
  region : ℕ
  /-- The offset from its start. -/
  off : ℕ
  deriving DecidableEq, Repr

/-- The place `n` bytes further on. -/
def Ptr.add (p : Ptr) (n : ℕ) : Ptr := ⟨p.region, p.off + n⟩

/-- A range of bytes. -/
structure Range where
  /-- Its first byte. -/
  ptr : Ptr
  /-- How many. -/
  len : ℕ
  deriving DecidableEq, Repr

/-- Ranges that share no byte. -/
def Range.Apart (r s : Range) : Prop :=
  r.ptr.region = s.ptr.region → r.ptr.off + r.len ≤ s.ptr.off ∨ s.ptr.off + s.len ≤ r.ptr.off

theorem Range.Apart.symm {r s : Range} (h : r.Apart s) : s.Apart r := fun hreg => (h hreg.symm).symm

theorem Range.apart_of_region_ne {r s : Range} (h : r.ptr.region ≠ s.ptr.region) : r.Apart s :=
  fun hreg => absurd hreg h

/-- The regions and their bytes. -/
structure Memory where
  /-- The size of each region. -/
  sizes : List ℕ
  /-- The bytes. -/
  byte : ℕ → ℕ → UInt8

namespace Memory

variable {m m' : Memory} {p q : Ptr} {len : ℕ} {f : ℕ → UInt8}

/-- The bytes of the range are there. -/
def Holds (m : Memory) (p : Ptr) (len : ℕ) : Prop := p.off + len ≤ m.sizes.getD p.region 0

instance : Decidable (m.Holds p len) := inferInstanceAs (Decidable (_ ≤ _))

/-- A new region. -/
def alloc (m : Memory) (size : ℕ) (bytes : ℕ → UInt8) : Ptr × Memory :=
  (⟨m.sizes.length, 0⟩,
    { sizes := m.sizes ++ [size], byte := Function.update m.byte m.sizes.length bytes })

/-- Store bytes. -/
def write (m : Memory) (p : Ptr) (len : ℕ) (f : ℕ → UInt8) : Option Memory :=
  if m.Holds p len then
    some { m with byte := fun r o =>
      if r = p.region ∧ p.off ≤ o ∧ o < p.off + len then f (o - p.off) else m.byte r o }
  else none

/-- The bytes of a word. -/
def wordBytes (n : ℕ) (i : ℕ) : UInt8 := UInt8.ofNat (n / 256 ^ i)

/-- The word of eight bytes. -/
def word (m : Memory) (p : Ptr) : ℕ :=
  Nat.ofDigits 256 ((List.range 8).map fun i => (m.byte p.region (p.off + i)).toNat)

theorem write_eq_some : m.write p len f = some m' ↔ m.Holds p len ∧
    { m with byte := fun r o =>
      if r = p.region ∧ p.off ≤ o ∧ o < p.off + len then f (o - p.off) else m.byte r o } = m' := by
  unfold write
  split_ifs with h <;> simp [h]

theorem sizes_write (h : m.write p len f = some m') : m'.sizes = m.sizes := by
  obtain ⟨-, rfl⟩ := write_eq_some.mp h
  rfl

theorem holds_write (h : m.write p len f = some m') : m'.Holds q = m.Holds q := by
  funext n
  rw [Holds, Holds, sizes_write h]

/-- The bytes stored are there. -/
theorem byte_write (h : m.write p len f = some m') {i : ℕ} (hi : i < len) :
    m'.byte p.region (p.off + i) = f i := by
  obtain ⟨-, rfl⟩ := write_eq_some.mp h
  simp [hi]

/-- **Frame**: a store leaves alone what is apart. -/
theorem byte_write_of_apart {r : Range} (h : m.write p len f = some m') (hr : Range.Apart ⟨p, len⟩ r) {i : ℕ}
    (hi : i < r.len) : m'.byte r.ptr.region (r.ptr.off + i) = m.byte r.ptr.region (r.ptr.off + i) := by
  obtain ⟨-, rfl⟩ := write_eq_some.mp h
  apply if_neg
  rintro ⟨hreg, hlo, hhi⟩
  rcases hr hreg.symm with hle | hle
  · exact absurd hhi (by simp only at hle; omega)
  · exact absurd hlo (by simp only at hle; omega)

theorem word_congr (h : ∀ i < 8, m'.byte p.region (p.off + i) = m.byte p.region (p.off + i)) :
    m'.word p = m.word p := by
  unfold word
  congr 1
  exact List.map_congr_left fun i hi => by rw [h i (List.mem_range.mp hi)]

/-- **Words**: a word that was stored is read back. -/
theorem word_write {n : ℕ} (h : m.write p 8 (wordBytes n) = some m') : m'.word p = n % 256 ^ 8 := by
  rw [word, ← LittleEndian.ofDigits_digit 256 n 8]
  congr 1
  apply List.map_congr_left
  intro i hi
  rw [byte_write h (List.mem_range.mp hi), wordBytes, UInt8.toNat_ofNat']

theorem word_write_of_apart (h : m.write p len f = some m') (hq : Range.Apart ⟨p, len⟩ ⟨q, 8⟩) :
    m'.word q = m.word q :=
  word_congr fun _ hi => byte_write_of_apart h hq hi

/-- Old regions are left alone by a new one. -/
theorem byte_alloc {size : ℕ} {bytes : ℕ → UInt8} {r : ℕ} (hr : r < m.sizes.length) (o : ℕ) :
    (m.alloc size bytes).2.byte r o = m.byte r o := by
  simp [alloc, hr.ne]

theorem word_alloc {size : ℕ} {bytes : ℕ → UInt8} (hp : p.region < m.sizes.length) :
    (m.alloc size bytes).2.word p = m.word p :=
  word_congr fun _ _ => byte_alloc hp _

theorem holds_alloc {size : ℕ} {bytes : ℕ → UInt8} (h : m.Holds p len) (hp : p.region < m.sizes.length) :
    (m.alloc size bytes).2.Holds p len := by
  simpa [Holds, alloc, List.getElem?_append_left hp] using h

end Memory

end Regions
