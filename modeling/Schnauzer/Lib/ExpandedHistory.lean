import Mathlib.Data.List.Basic
import Mathlib.Data.List.TakeDrop
import Schnauzer.Lib.CausalHistory

/-!
# A history whose labels are expanded

Each label of a history becomes a list of labels that read and write the same nodes. `startOf` says where
the list of a label begins.

## What is proved

* `exists_source`, `source_lt_iff` — a place of the expanded history comes from one place of the history.
* `BeforeIn.expand`, `BeforeIn.source` — the order of the labels does not change.
-/

namespace CausalOrder

universe u v w

variable {L : Type v} {M : Type w} (f : L → List M)

/-- Where the labels of the label at place `n` begin. -/
def startOf (h : List L) (n : ℕ) : ℕ := ((h.take n).flatMap f).length

variable {f} {h : List L} {i j k k' m n : ℕ} {l l' : L} {y : M}

theorem startOf_succ (hn : h[n]? = some l) : startOf f h (n + 1) = startOf f h n + (f l).length := by
  rw [startOf, List.take_add_one, hn]
  simp [startOf]

theorem startOf_mono (hnm : n ≤ m) : startOf f h n ≤ startOf f h m := by
  have hpre : h.take n <+: h.take m := List.take_prefix_take_left hnm
  obtain ⟨t, ht⟩ := hpre
  rw [startOf, startOf, ← ht, List.flatMap_append, List.length_append]
  exact Nat.le_add_right _ _

theorem startOf_add_le (hn : h[n]? = some l) (hnm : n < m) : startOf f h n + (f l).length ≤ startOf f h m := by
  rw [← startOf_succ hn]
  exact startOf_mono hnm

theorem startOf_cons : startOf f (l :: h) (n + 1) = (f l).length + startOf f h n := by
  simp [startOf]

/-- The labels of a label. -/
theorem getElem?_startOf (hn : h[n]? = some l) (hk : (f l)[k]? = some y) :
    (h.flatMap f)[startOf f h n + k]? = some y := by
  induction h generalizing n with
  | nil => cases hn
  | cons x h ih =>
    rw [List.flatMap_cons]
    cases n with
    | zero =>
      cases hn
      have hlen := (List.getElem?_eq_some_iff.mp hk).1
      rw [show startOf f (l :: h) 0 + k = k from Nat.zero_add k, List.getElem?_append_left hlen, hk]
    | succ n =>
      rw [startOf_cons, Nat.add_assoc, List.getElem?_append_right (Nat.le_add_right _ _),
        Nat.add_sub_cancel_left]
      exact ih hn

/-- **Where a place comes from.** -/
theorem exists_source (hi : (h.flatMap f)[i]? = some y) :
    ∃ n l k, h[n]? = some l ∧ (f l)[k]? = some y ∧ i = startOf f h n + k := by
  induction h generalizing i with
  | nil => cases hi
  | cons x h ih =>
    rw [List.flatMap_cons] at hi
    by_cases hlt : i < (f x).length
    · rw [List.getElem?_append_left hlt] at hi
      exact ⟨0, x, i, rfl, hi, (Nat.zero_add i).symm⟩
    · rw [List.getElem?_append_right (not_lt.mp hlt)] at hi
      obtain ⟨n, l, k, hn, hk, heq⟩ := ih hi
      refine ⟨n + 1, l, k, hn, hk, ?_⟩
      rw [startOf_cons]
      omega

/-- Places are in the order of the places where they come from. -/
theorem source_lt_iff (hn : h[n]? = some l) (hk : k < (f l).length) (hm : h[m]? = some l')
    (hk' : k' < (f l').length) : startOf f h n + k < startOf f h m + k' ↔ n < m ∨ n = m ∧ k < k' := by
  rcases Nat.lt_trichotomy n m with hlt | rfl | hlt
  · have hle := startOf_add_le (f := f) hn hlt
    omega
  · omega
  · have hle := startOf_add_le (f := f) hm hlt
    omega

theorem source_unique (hn : h[n]? = some l) (hk : k < (f l).length) (hm : h[m]? = some l')
    (hk' : k' < (f l').length) (heq : startOf f h n + k = startOf f h m + k') : n = m := by
  rcases Nat.lt_trichotomy n m with hlt | rfl | hlt
  · have h' := (source_lt_iff hn hk hm hk').mpr (Or.inl hlt)
    omega
  · rfl
  · have h' := (source_lt_iff hm hk' hn hk).mpr (Or.inl hlt)
    omega

section Order

variable {Node : Type u} {reads writes : L → Set Node} {reads' writes' : M → Set Node}

/-- The labels of a label read and write what it reads and writes. -/
def SameNodes (f : L → List M) (nodes : L → Set Node) (nodes' : M → Set Node) (h : List L) : Prop :=
  ∀ l ∈ h, ∀ y ∈ f l, nodes' y = nodes l

theorem SameNodes.nodesAt_eq {nodes : L → Set Node} {nodes' : M → Set Node} (hs : SameNodes f nodes nodes' h)
    (hn : h[n]? = some l) (hk : k < (f l).length) :
    nodesAt nodes' (h.flatMap f) (startOf f h n + k) = nodesAt nodes h n := by
  have hy : (f l)[k]? = some (f l)[k] := List.getElem?_eq_getElem hk
  ext x
  simp only [nodesAt, getElem?_startOf hn hy, hn, Option.some.injEq, exists_eq_left', Set.mem_ofPred_eq]
  rw [hs l (List.mem_of_getElem? hn) _ (List.getElem_mem hk)]

/-- **The order of the labels** is found among those that they become. -/
theorem BeforeIn.expand (hr : SameNodes f reads reads' h) (hw : SameNodes f writes writes' h)
    (hne : ∀ l ∈ h, f l ≠ []) (hb : BeforeIn reads writes h n m) (hn : h[n]? = some l) (hk : k < (f l).length)
    (hm : h[m]? = some l') (hk' : k' < (f l').length) :
    BeforeIn reads' writes' (h.flatMap f) (startOf f h n + k) (startOf f h m + k') := by
  have hdirect : ∀ {n m k k' : ℕ} {l l' : L}, h[n]? = some l → k < (f l).length → h[m]? = some l' →
      k' < (f l').length → Direct (nodesAt reads h) (nodesAt writes h) n m →
        BeforeIn reads' writes' (h.flatMap f) (startOf f h n + k) (startOf f h m + k') := by
    rintro n m k k' l l' hn hk hm hk' ⟨hlt, x, hx, hx'⟩
    refine .single ⟨(source_lt_iff hn hk hm hk').mpr (Or.inl hlt), x, ?_, ?_⟩
    · rwa [hw.nodesAt_eq hn hk]
    · rwa [hr.nodesAt_eq hm hk']
  induction hb generalizing l' k' with
  | single hd => exact hdirect hn hk hm hk' hd
  | @tail p m _ hd ih =>
    obtain ⟨lp, hp, -⟩ := hd.2.choose_spec.1
    have hpos : 0 < (f lp).length := List.length_pos_iff.mpr (hne lp (List.mem_of_getElem? hp))
    exact (ih hp hpos).trans (hdirect hp hpos hm hk' hd)

/-- **No other order** comes about. -/
theorem BeforeIn.source (hr : SameNodes f reads reads' h) (hw : SameNodes f writes writes' h)
    (hb : BeforeIn reads' writes' (h.flatMap f) (startOf f h n + k) (startOf f h m + k'))
    (hn : h[n]? = some l) (hk : k < (f l).length) (hm : h[m]? = some l') (hk' : k' < (f l').length) :
    n = m ∨ BeforeIn reads writes h n m := by
  classical
  -- each place, where it comes from
  let src : ℕ → ℕ := fun i =>
    if hs : ∃ n l k, h[n]? = some l ∧ k < (f l).length ∧ i = startOf f h n + k then hs.choose else 0
  have hsrc : ∀ {n k : ℕ} {l : L}, h[n]? = some l → k < (f l).length → src (startOf f h n + k) = n := by
    intro n k l hn hk
    have hs : ∃ n' l k', h[n']? = some l ∧ k' < (f l).length ∧ startOf f h n + k = startOf f h n' + k' :=
      ⟨n, l, k, hn, hk, rfl⟩
    obtain ⟨l', k', hn', hk', heq⟩ := hs.choose_spec
    rw [show src (startOf f h n + k) = hs.choose from dif_pos hs]
    exact (source_unique hn hk hn' hk' heq).symm
  have hsim : src (startOf f h n + k) = src (startOf f h m + k') ∨
      BeforeIn reads writes h (src (startOf f h n + k)) (src (startOf f h m + k')) := by
    refine before_of_simulation src (fun i j hd => ?_) hb
    obtain ⟨hlt, x, hx, hx'⟩ := hd
    obtain ⟨y, hy, -⟩ := id hx
    obtain ⟨y', hy', -⟩ := id hx'
    obtain ⟨p, lp, kp, hp, hkp, rfl⟩ := exists_source hy
    obtain ⟨q, lq, kq, hq, hkq, rfl⟩ := exists_source hy'
    have hkp' := (List.getElem?_eq_some_iff.mp hkp).1
    have hkq' := (List.getElem?_eq_some_iff.mp hkq).1
    rw [hw.nodesAt_eq hp hkp'] at hx
    rw [hr.nodesAt_eq hq hkq'] at hx'
    rw [hsrc hp hkp', hsrc hq hkq']
    rcases (source_lt_iff hp hkp' hq hkq').mp hlt with hpq | ⟨rfl, -⟩
    · exact Or.inr (.single ⟨hpq, x, hx, hx'⟩)
    · exact Or.inl rfl
  rwa [hsrc hn hk, hsrc hm hk'] at hsim

end Order

end CausalOrder
