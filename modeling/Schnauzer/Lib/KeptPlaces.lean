import Mathlib.Data.List.Basic
import Mathlib.Data.List.Pairwise
import Schnauzer.Lib.CausalHistory

/-!
# A history without some of its labels

Labels are left out of a history. `keptPlaces` says where the labels that stay have been.

## What is proved

* `getElem?_filter` — the labels that stay, at their old places.
* `beforeIn_filter` — the order among them does not change, if every label that is left out only passes on the
  knowledge of one node.
-/

namespace CausalOrder

universe u v

variable {L : Type v} (keep : L → Bool)

/-- The places of the labels that stay, when the first label is at place `n`. -/
def keptFrom : ℕ → List L → List ℕ
  | _, [] => []
  | n, l :: h => if keep l then n :: keptFrom (n + 1) h else keptFrom (n + 1) h

/-- The places of the labels that stay. -/
def keptPlaces (h : List L) : List ℕ := keptFrom keep 0 h

variable {keep} {h : List L} {n i j k m : ℕ} {l : L}

theorem mem_keptFrom : i ∈ keptFrom keep n h ↔ ∃ k l, h[k]? = some l ∧ keep l ∧ i = n + k := by
  induction h generalizing n with
  | nil => simp [keptFrom]
  | cons x h ih =>
    have htail : (∃ k l, h[k]? = some l ∧ keep l ∧ i = n + 1 + k) ↔
        ∃ k l, (x :: h)[k + 1]? = some l ∧ keep l ∧ i = n + (k + 1) := by
      simp only [List.getElem?_cons_succ, Nat.add_assoc, Nat.add_comm 1]
    have hsplit : (∃ k l, (x :: h)[k]? = some l ∧ keep l ∧ i = n + k) ↔
        keep x ∧ i = n ∨ ∃ k l, (x :: h)[k + 1]? = some l ∧ keep l ∧ i = n + (k + 1) := by
      constructor
      · rintro ⟨k, l, hl, hkeep, rfl⟩
        cases k with
        | zero =>
          cases hl
          exact Or.inl ⟨hkeep, rfl⟩
        | succ k => exact Or.inr ⟨k, l, hl, hkeep, rfl⟩
      · rintro (⟨hkeep, rfl⟩ | ⟨k, l, hrest⟩)
        · exact ⟨0, x, rfl, hkeep, rfl⟩
        · exact ⟨k + 1, l, hrest⟩
    rw [hsplit, ← htail, ← ih, keptFrom]
    split_ifs with hkeep
    · simp [hkeep]
    · simp [hkeep]

theorem pairwise_keptFrom : (keptFrom keep n h).Pairwise (· < ·) := by
  induction h generalizing n with
  | nil => exact .nil
  | cons x h ih =>
    rw [keptFrom]
    split_ifs
    · refine List.pairwise_cons.mpr ⟨fun i hi => ?_, ih⟩
      obtain ⟨k, l, -, -, rfl⟩ := mem_keptFrom.mp hi
      omega
    · exact ih

theorem getElem?_filter_from : (h.filter keep)[k]? = (keptFrom keep n h)[k]?.bind fun i => h[i - n]? := by
  induction h generalizing n k with
  | nil => simp [keptFrom]
  | cons x h ih =>
    have htail : ∀ k : ℕ, (keptFrom keep (n + 1) h)[k]?.bind (fun i => h[i - (n + 1)]?) =
        (keptFrom keep (n + 1) h)[k]?.bind fun i => (x :: h)[i - n]? := by
      intro k
      cases hk : (keptFrom keep (n + 1) h)[k]? with
      | none => rfl
      | some i =>
        obtain ⟨m, l, -, -, rfl⟩ := mem_keptFrom.mp (List.mem_of_getElem? hk)
        simp only [Option.bind_some]
        rw [show n + 1 + m - n = m + 1 by omega, show n + 1 + m - (n + 1) = m by omega]
        rfl
    rw [keptFrom, List.filter_cons]
    split_ifs with hkeep
    · cases k with
      | zero => simp
      | succ k =>
        rw [List.getElem?_cons_succ, List.getElem?_cons_succ, ih, htail]
    · rw [ih, htail]

/-! ### The labels that stay -/

/-- The place where a label that stays has been. -/
theorem getElem?_filter (hk : (keptPlaces keep h)[k]? = some i) : (h.filter keep)[k]? = h[i]? := by
  rw [getElem?_filter_from (n := 0)]
  simp only [keptPlaces] at hk
  rw [hk]
  rfl

theorem exists_kept (hk : (h.filter keep)[k]? = some l) :
    ∃ i, (keptPlaces keep h)[k]? = some i ∧ h[i]? = some l := by
  rw [getElem?_filter_from (n := 0)] at hk
  obtain ⟨i, hi, hl⟩ := Option.bind_eq_some_iff.mp hk
  exact ⟨i, hi, hl⟩

theorem mem_keptPlaces : i ∈ keptPlaces keep h ↔ ∃ l, h[i]? = some l ∧ keep l := by
  rw [keptPlaces, mem_keptFrom]
  constructor
  · rintro ⟨k, l, hl, hkeep, rfl⟩
    exact ⟨l, by rwa [Nat.zero_add], hkeep⟩
  · rintro ⟨l, hl, hkeep⟩
    exact ⟨i, l, hl, hkeep, (Nat.zero_add i).symm⟩

/-- The labels that stay are in their old order. -/
theorem kept_lt_iff (hk : (keptPlaces keep h)[k]? = some i) (hm : (keptPlaces keep h)[m]? = some j) :
    k < m ↔ i < j := by
  have hmono : ∀ k m i j : ℕ, (keptPlaces keep h)[k]? = some i → (keptPlaces keep h)[m]? = some j →
      k < m → i < j := by
    intro k m i j hk hm hlt
    obtain ⟨hk', rfl⟩ := List.getElem?_eq_some_iff.mp hk
    obtain ⟨hm', rfl⟩ := List.getElem?_eq_some_iff.mp hm
    have hp : (keptPlaces keep h).Pairwise (· < ·) := pairwise_keptFrom
    exact List.pairwise_iff_getElem.mp hp k m hk' hm' hlt
  refine ⟨hmono k m i j hk hm, fun hij => ?_⟩
  rcases Nat.lt_trichotomy k m with hlt | rfl | hlt
  · exact hlt
  · cases hk.symm.trans hm
    exact absurd hij (lt_irrefl _)
  · exact absurd (hmono m k j i hm hk hlt) hij.asymm

section Order

variable {Node : Type u} {reads writes : L → Set Node}

/-- **The order does not change** when labels that pass on one node are left out. -/
theorem beforeIn_filter
    (hskip : ∀ l ∈ h, keep l = false → ∃ x, (∀ y ∈ reads l, y = x) ∧ ∀ y ∈ writes l, y = x)
    (hk : (keptPlaces keep h)[k]? = some i) (hm : (keptPlaces keep h)[m]? = some j) :
    BeforeIn reads writes (h.filter keep) k m ↔ BeforeIn reads writes h i j := by
  have hnodes : ∀ {nodes : L → Set Node} {k i : ℕ}, (keptPlaces keep h)[k]? = some i →
      nodesAt nodes (h.filter keep) k = nodesAt nodes h i := by
    intro nodes k i hk
    unfold nodesAt
    rw [getElem?_filter hk]
  have hkept : ∀ {nodes : L → Set Node} {k : ℕ} {x : Node}, x ∈ nodesAt nodes (h.filter keep) k →
      ∃ i, (keptPlaces keep h)[k]? = some i := by
    rintro nodes k x ⟨l, hl, -⟩
    obtain ⟨i, hi, -⟩ := exists_kept hl
    exact ⟨i, hi⟩
  constructor
  · intro hb
    -- along the chain, each label at its old place
    have hgetD : ∀ {k i : ℕ}, (keptPlaces keep h)[k]? = some i → (keptPlaces keep h)[k]?.getD 0 = i :=
      fun h => by rw [h]; rfl
    have hsim := @before_of_simulation _ _ _ _ (nodesAt reads h) (nodesAt writes h)
      (fun k => (keptPlaces keep h)[k]?.getD 0) (fun k m hd => by
        obtain ⟨hlt, x, hx, hx'⟩ := hd
        obtain ⟨i, hi⟩ := hkept hx
        obtain ⟨j, hj⟩ := hkept hx'
        rw [hnodes hi] at hx
        rw [hnodes hj] at hx'
        rw [hgetD hi, hgetD hj]
        exact Or.inr (.single ⟨(kept_lt_iff hi hj).mp hlt, x, hx, hx'⟩)) _ _ hb
    rw [hgetD hk, hgetD hm] at hsim
    apply hsim.resolve_left
    intro heq
    have hlt := (kept_lt_iff hk hm).mp hb.lt
    omega
  · intro hb
    have hvia : Via (nodesAt reads h) (nodesAt writes h) (· ∈ keptPlaces keep h) i j := by
      refine Via.of_before (fun p hp => ?_) hb
      cases hl : h[p]? with
      | none =>
        have hempty : ∀ (nodes : L → Set Node) (y : Node), y ∉ nodesAt nodes h p := by
          rintro nodes y ⟨l, hl', -⟩
          cases hl.symm.trans hl'
        by_cases hex : Nonempty Node
        · exact ⟨hex.some, fun y hy => absurd hy (hempty _ y), fun y hy => absurd hy (hempty _ y)⟩
        · -- the chain has a node
          obtain ⟨p', -, -, x, -⟩ := Relation.TransGen.tail'_iff.mp hb
          exact absurd ⟨x⟩ hex
      | some l =>
        have hkeep : keep l = false := by
          cases hkl : keep l with
          | false => rfl
          | true => exact absurd (mem_keptPlaces.mpr ⟨l, hl, hkl⟩) hp
        obtain ⟨x, hr, hw⟩ := hskip l (List.mem_of_getElem? hl) hkeep
        refine ⟨x, ?_, ?_⟩
        · rintro y ⟨l', hl', hy⟩
          cases hl.symm.trans hl'
          exact hr y hy
        · rintro y ⟨l', hl', hy⟩
          cases hl.symm.trans hl'
          exact hw y hy
    have hdirect : ∀ {k m i j : ℕ}, (keptPlaces keep h)[k]? = some i → (keptPlaces keep h)[m]? = some j →
        Direct (nodesAt reads h) (nodesAt writes h) i j →
          BeforeIn reads writes (h.filter keep) k m := by
      rintro k m i j hk hm ⟨hij, x, hx, hx'⟩
      refine .single ⟨(kept_lt_iff hk hm).mpr hij, x, ?_, ?_⟩
      · rwa [hnodes hk]
      · rwa [hnodes hm]
    clear hb
    induction hvia generalizing k with
    | single hd => exact hdirect hk hm hd
    | head hd hp _ ih =>
      obtain ⟨p', hp'⟩ := List.mem_iff_getElem?.mp hp
      exact (hdirect hk hp' hd).trans (ih hp' hm)

end Order

end CausalOrder
