import Mathlib.Data.Set.Function
import Mathlib.Order.Interval.Set.LinearOrder
import Mathlib.Order.MinMax

/-!
# The memory and string functions of C

Memory is read at addresses; `off a k` is the address `k` bytes after `a`. A function of the library is
the list of its stores, each an address and the byte that goes there. The functions are the ones
whose arguments do not overlap, so that what is read is the memory before the call.

## What is proved

* `strnlen_eq_min` — the length of a string, up to a bound.
* `written_copy`, `written_strcpy`, `written_strncpy`, `written_strncat` — which addresses are written.
* `region_eq_iff` — regions that start together are equal when their lengths are.
-/

namespace CString

universe u v

variable {α : Type u} {β : Type v} [Zero β] [DecidableEq β]

variable (off : α → ℕ → α) (mem : α → β)

/-- The first zero byte from `k` on, among `fuel` bytes. -/
def nulFrom (a : α) : ℕ → ℕ → ℕ
  | 0, k => k
  | fuel + 1, k => if mem (off a k) = 0 then k else nulFrom a fuel (k + 1)

/-- `strnlen`. -/
def strnlen (a : α) (n : ℕ) : ℕ := nulFrom off mem a n 0

/-- The `n` bytes from `a` on. -/
def region (a : α) (n : ℕ) : Set α := off a '' Set.Iio n

/-- The addresses that are written. -/
def written (stores : List (α × β)) : Set α := {a | ∃ x ∈ stores, x.1 = a}

/-- `memcpy` and `memmove`. -/
def copy (dest src : α) (n : ℕ) : List (α × β) :=
  (List.range n).map fun k => (off dest k, mem (off src k))

/-- `memset`. -/
def fill (str : α) (c : β) (n : ℕ) : List (α × β) := (List.range n).map fun k => (off str k, c)

/-- `strcpy`, in a memory of `size` bytes. -/
def strcpy (size : ℕ) (dest src : α) : List (α × β) :=
  copy off mem dest src (strnlen off mem src size) ++ [(off dest (strnlen off mem src size), 0)]

/-- `strncpy`: null bytes are written until `n` bytes have been written. -/
def strncpy (dest src : α) (n : ℕ) : List (α × β) :=
  copy off mem dest src (strnlen off mem src n) ++
    (List.range' (strnlen off mem src n) (n - strnlen off mem src n)).map fun k => (off dest k, 0)

/-- `strcat`, in a memory of `size` bytes. -/
def strcat (size : ℕ) (dest src : α) : List (α × β) :=
  strcpy off mem size (off dest (strnlen off mem dest size)) src

/-- `strncat`: at most `n` bytes, and always a null byte. -/
def strncat (size : ℕ) (dest src : α) (n : ℕ) : List (α × β) :=
  let dest := off dest (strnlen off mem dest size)
  copy off mem dest src (strnlen off mem src n) ++ [(off dest (strnlen off mem src n), 0)]

variable {off mem} {a dest src : α} {c : β} {k l m n fuel size : ℕ}

/-! ### Lengths -/

theorem nulFrom_le : k ≤ nulFrom off mem a fuel k ∧ nulFrom off mem a fuel k ≤ k + fuel := by
  induction fuel generalizing k with
  | zero => exact ⟨le_rfl, le_rfl⟩
  | succ fuel ih =>
    rw [nulFrom]
    split_ifs
    · exact ⟨le_rfl, Nat.le_add_right _ _⟩
    · have h := @ih (k + 1)
      omega

/-- The bytes before it are not zero. -/
theorem ne_zero_of_lt_nulFrom (hk : k ≤ m) (h : m < nulFrom off mem a fuel k) : mem (off a m) ≠ 0 := by
  induction fuel generalizing k with
  | zero => exact absurd h (not_lt.mpr hk)
  | succ fuel ih =>
    rw [nulFrom] at h
    split_ifs at h with hz
    · exact absurd h (not_lt.mpr hk)
    · rcases hk.eq_or_lt with rfl | hlt
      · exact hz
      · exact ih hlt h

/-- And the byte that is found is. -/
theorem nulFrom_eq_zero (h : nulFrom off mem a fuel k < k + fuel) :
    mem (off a (nulFrom off mem a fuel k)) = 0 := by
  induction fuel generalizing k with
  | zero => exact absurd h (lt_irrefl k)
  | succ fuel ih =>
    rw [nulFrom] at h ⊢
    split_ifs at h ⊢ with hz
    · exact hz
    · exact ih (by omega)

theorem strnlen_le : strnlen off mem a n ≤ n := by
  have h : strnlen off mem a n ≤ 0 + n := nulFrom_le.2
  rwa [Nat.zero_add] at h

/-- **The length up to a bound** is the length, or the bound. -/
theorem strnlen_eq_min (hn : n ≤ size) :
    strnlen off mem a n = min (strnlen off mem a size) n := by
  rcases lt_trichotomy (strnlen off mem a n) (min (strnlen off mem a size) n) with h | h | h
  · have hlt := lt_min_iff.mp h
    have hz : mem (off a (strnlen off mem a n)) = 0 := nulFrom_eq_zero (by rw [Nat.zero_add]; exact hlt.2)
    exact absurd hz (ne_zero_of_lt_nulFrom (Nat.zero_le _) hlt.1)
  · exact h
  · have hle : strnlen off mem a n ≤ n := strnlen_le
    have hlt : strnlen off mem a size < n := by
      by_contra hge
      rw [min_eq_right (not_lt.mp hge)] at h
      exact absurd h (not_lt.mpr hle)
    rw [min_eq_left hlt.le] at h
    have hz : mem (off a (strnlen off mem a size)) = 0 := 
      nulFrom_eq_zero (by rw [Nat.zero_add]; exact hlt.trans_le hn)
    exact absurd hz (ne_zero_of_lt_nulFrom (Nat.zero_le _) h)

/-! ### Regions -/

theorem region_succ : region off a (n + 1) = region off a n ∪ {off a n} := by
  have h : Set.Iio (n + 1) = Set.Iio n ∪ {n} := by
    ext k
    simp only [Set.mem_Iio, Set.mem_union, Set.mem_singleton_iff]
    omega
  rw [region, h, Set.image_union, Set.image_singleton]
  rfl

/-- **Regions that start together.** -/
theorem region_eq_iff (hoff : Set.InjOn (off a) (Set.Iio size)) (hm : m ≤ size) (hn : n ≤ size) :
    region off a m = region off a n ↔ m = n := by
  rw [region, region, hoff.image_eq_image_iff (Set.Iio_subset_Iio hm) (Set.Iio_subset_Iio hn)]
  exact Set.Iio_inj

/-! ### What is written -/

omit [DecidableEq β] [Zero β] in
theorem written_append (xs ys : List (α × β)) : written (xs ++ ys) = written xs ∪ written ys := by
  ext a
  simp [written, or_and_right, exists_or]

omit [DecidableEq β] [Zero β] in
theorem written_singleton (x : α × β) : written [x] = {x.1} := by
  ext a
  simp [written, eq_comm]

omit [DecidableEq β] [Zero β] in
theorem written_map (ks : List ℕ) (f : ℕ → β) :
    written (ks.map fun k => (off a k, f k)) = off a '' {k | k ∈ ks} := by
  ext b
  simp [written]

omit [DecidableEq β] [Zero β] in
theorem written_copy : written (copy off mem dest src n) = region off dest n := by
  rw [copy, written_map, region]
  congr 1
  ext k
  simp

omit [DecidableEq β] [Zero β] in
theorem written_fill : written (fill off a c n) = region off a n := by
  rw [fill, written_map, region]
  congr 1
  ext k
  simp

/-- **`strcpy`** writes the string and a null byte. -/
theorem written_strcpy :
    written (strcpy off mem size dest src) = region off dest (strnlen off mem src size + 1) := by
  rw [strcpy, written_append, written_copy, written_singleton, region_succ]

/-- **`strncpy`** writes `n` bytes. -/
theorem written_strncpy : written (strncpy off mem dest src n) = region off dest n := by
  have hle : strnlen off mem src n ≤ n := strnlen_le
  rw [strncpy, written_append, written_copy, written_map, region, region, ← Set.image_union]
  congr 1
  ext k
  simp only [Set.mem_union, Set.mem_Iio, Set.mem_ofPred_eq, List.mem_range'_1]
  omega

/-- **`strncat`** writes at most `n` bytes and a null byte, after the string that is there. -/
theorem written_strncat : written (strncat off mem size dest src n) =
    region off (off dest (strnlen off mem dest size)) (strnlen off mem src n + 1) := by
  rw [strncat, written_append, written_copy, written_singleton, region_succ]

end CString
