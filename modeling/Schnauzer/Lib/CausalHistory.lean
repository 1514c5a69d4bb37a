import Mathlib.Data.List.Forall2
import Mathlib.Data.Set.Image
import Mathlib.Logic.Equiv.Basic
import Mathlib.Tactic.SplitIfs
import Mathlib.Tactic.Tauto
import Schnauzer.Lib.CausalOrder

/-!
# The causal order of a history that grows

A history is a list of labels, the latest last. Every label reads and writes nodes, so that
the places of the history are the events of a causal order; `Knows` is what a node knows at the
end of the history.

## What is proved

* `beforeIn_append` — the order among the places of a history does not change when it grows.
* `mem_knows_append`, `beforeIn_length` — what one more label changes.
* `BeforeIn.swap` — two adjacent labels of which the first passes nothing to the second can be swapped.
* `beforeIn_renamed` — other names for the nodes leave the order as it is.
* `Via.of_before` — places that only pass on the knowledge of one node can be left out of a chain.
-/

namespace CausalOrder

open Relation

universe u v

section Congr

variable {Node : Type u} {reads writes reads' writes' : ℕ → Set Node} {i j k m : ℕ}

theorem Direct.congr (hr : ∀ i < k, reads i = reads' i) (hw : ∀ i < k, writes i = writes' i) (hj : j < k)
    (h : Direct reads writes i j) : Direct reads' writes' i j := by
  obtain ⟨hij, x, hx, hx'⟩ := h
  exact ⟨hij, x, hw i (hij.trans hj) ▸ hx, hr j hj ▸ hx'⟩

theorem Before.congr (hr : ∀ i < k, reads i = reads' i) (hw : ∀ i < k, writes i = writes' i) (hj : j < k)
    (h : Before reads writes i j) : Before reads' writes' i j := by
  induction h with
  | single h => exact .single (h.congr hr hw hj)
  | tail _ h ih => exact (ih (h.lt.trans hj)).trans (.single (h.congr hr hw hj))

theorem known_congr {x : Node} (hr : ∀ i < k, reads i = reads' i) (hw : ∀ i < k, writes i = writes' i)
    (hm : m ≤ k) (h : i ∈ Known reads writes m x) : i ∈ Known reads' writes' m x := by
  obtain ⟨j, hj, hx, hij⟩ := h
  exact ⟨j, hj, hw j (hj.trans_le hm) ▸ hx, hij.imp_right fun h => h.congr hr hw (hj.trans_le hm)⟩

end Congr

/-! ### One more label -/

section History

variable {L : Type v} {Node : Type u} (reads writes : L → Set Node)

/-- What the label at place `i` has to do with. -/
def nodesAt (nodes : L → Set Node) (h : List L) (i : ℕ) : Set Node := {x | ∃ l, h[i]? = some l ∧ x ∈ nodes l}

/-- The causal order of a history. -/
def BeforeIn (h : List L) : ℕ → ℕ → Prop := Before (nodesAt reads h) (nodesAt writes h)

/-- What a node knows at the end of a history. -/
def Knows (h : List L) (x : Node) : Set ℕ := Known (nodesAt reads h) (nodesAt writes h) h.length x

variable {reads writes} {h h' : List L} {l : L} {x : Node} {i j : ℕ}

theorem nodesAt_append {nodes : L → Set Node} (hi : i < h.length) :
    nodesAt nodes (h ++ h') i = nodesAt nodes h i := by
  simp [nodesAt, List.getElem?_append_left hi]

theorem nodesAt_length {nodes : L → Set Node} : nodesAt nodes (h ++ [l]) h.length = nodes l := by
  ext x
  simp [nodesAt]

/-- A place that precedes another is in the history. -/
theorem BeforeIn.lt_length (hb : BeforeIn reads writes h i j) : j < h.length := by
  obtain ⟨m, -, -, x, -, l, hl, -⟩ := TransGen.tail'_iff.mp hb
  exact (List.getElem?_eq_some_iff.mp hl).1

/-- **The order does not change** among the places of a history. -/
theorem beforeIn_append (hj : j < h.length) :
    BeforeIn reads writes (h ++ h') i j ↔ BeforeIn reads writes h i j := by
  constructor
  · exact fun hb => hb.congr (fun _ hi => nodesAt_append hi) (fun _ hi => nodesAt_append hi) hj
  · exact fun hb => hb.congr (fun _ hi => (nodesAt_append hi).symm) (fun _ hi => (nodesAt_append hi).symm) hj

theorem BeforeIn.append (hb : BeforeIn reads writes h i j) : BeforeIn reads writes (h ++ h') i j :=
  (beforeIn_append hb.lt_length).mpr hb

theorem known_append : i ∈ Known (nodesAt reads (h ++ h')) (nodesAt writes (h ++ h')) h.length x ↔
    i ∈ Knows reads writes h x := by
  constructor
  · exact known_congr (fun _ hi => nodesAt_append hi) (fun _ hi => nodesAt_append hi) le_rfl
  · exact known_congr (fun _ hi => (nodesAt_append hi).symm) (fun _ hi => (nodesAt_append hi).symm) le_rfl

/-- **The new label** comes after what the nodes that it reads know. -/
theorem beforeIn_length :
    BeforeIn reads writes (h ++ [l]) i h.length ↔ ∃ x ∈ reads l, i ∈ Knows reads writes h x := by
  unfold BeforeIn
  rw [before_iff_known, nodesAt_length]
  simp only [known_append]

/-- **Knowledge**: a node that the new label writes learns the label and all that it has read. -/
theorem mem_knows_append : i ∈ Knows reads writes (h ++ [l]) x ↔ i ∈ Knows reads writes h x ∨
    x ∈ writes l ∧ (i = h.length ∨ ∃ y ∈ reads l, i ∈ Knows reads writes h y) := by
  unfold Knows
  rw [List.length_append, List.length_singleton, known_succ, nodesAt_length, nodesAt_length]
  simp only [known_append]
  rfl

theorem Knows.append (hi : i ∈ Knows reads writes h x) : i ∈ Knows reads writes (h ++ [l]) x :=
  mem_knows_append.mpr (Or.inl hi)

/-- A node that is written knows what the node that is read knows. -/
theorem Knows.pass {y : Node} (hi : i ∈ Knows reads writes h y) (hy : y ∈ reads l) (hx : x ∈ writes l) :
    i ∈ Knows reads writes (h ++ [l]) x :=
  mem_knows_append.mpr (Or.inr ⟨hx, Or.inr ⟨y, hy, hi⟩⟩)

theorem knows_length (hx : x ∈ writes l) : h.length ∈ Knows reads writes (h ++ [l]) x :=
  mem_knows_append.mpr (Or.inr ⟨hx, Or.inl rfl⟩)

end History

/-! ### Swapping two adjacent labels -/

section Swap

/-- The places `k` and `k + 1` are swapped: all others keep their order. -/
theorem swap_lt_swap {i j k : ℕ} (h : i < j) (hno : ¬ (i = k ∧ j = k + 1)) :
    Equiv.swap k (k + 1) i < Equiv.swap k (k + 1) j := by
  simp only [Equiv.swap_apply_def]
  split_ifs <;> omega

variable {L : Type v} {Node : Type u} {reads writes : L → Set Node} {h h' : List L} {i j k : ℕ}

/-- **A swap** keeps the order, if the first label passes nothing to the second. -/
theorem BeforeIn.swap (hget : ∀ i, h'[Equiv.swap k (k + 1) i]? = h[i]?)
    (hno : ∀ l l', h[k]? = some l → h[k + 1]? = some l' → ∀ x ∈ writes l, x ∉ reads l')
    (hb : BeforeIn reads writes h i j) :
    BeforeIn reads writes h' (Equiv.swap k (k + 1) i) (Equiv.swap k (k + 1) j) := by
  have hnodes : ∀ (nodes : L → Set Node) (i : ℕ),
      nodesAt nodes h' (Equiv.swap k (k + 1) i) = nodesAt nodes h i := by
    intro nodes i
    unfold nodesAt
    rw [hget]
  refine TransGen.lift (Equiv.swap k (k + 1)) (fun i j hd => ?_) i j hb
  obtain ⟨hij, x, hx, hx'⟩ := hd
  refine ⟨swap_lt_swap hij ?_, x, (hnodes writes i).symm ▸ hx, (hnodes reads j).symm ▸ hx'⟩
  rintro ⟨rfl, rfl⟩
  obtain ⟨l, hl, hxl⟩ := hx
  obtain ⟨l', hl', hxl'⟩ := hx'
  exact hno l l' hl hl' x hxl hxl'

end Swap

/-! ### Other names -/

section Renamed

variable {L : Type v} {M : Type*} {Node : Type u} {Node' : Type*} {R : L → M → Prop} {h : List L} {h' : List M}
  {i j : ℕ}

/-- The labels at one place of two histories. -/
theorem forall₂_getElem? (hR : List.Forall₂ R h h') {l : L} (hl : h[i]? = some l) : ∃ m, h'[i]? = some m ∧ R l m := by
  induction hR generalizing i with
  | nil => cases hl
  | cons hlm _ ih =>
    cases i with
    | zero =>
      cases hl
      exact ⟨_, rfl, hlm⟩
    | succ i => exact ih hl

theorem forall₂_getElem?' (hR : List.Forall₂ R h h') {m : M} (hm : h'[i]? = some m) : ∃ l, h[i]? = some l ∧ R l m := by
  induction hR generalizing i with
  | nil => cases hm
  | cons hlm _ ih =>
    cases i with
    | zero =>
      cases hm
      exact ⟨_, rfl, hlm⟩
    | succ i => exact ih hm

variable {ν : Node → Node'} {reads writes : L → Set Node} {reads' writes' : M → Set Node'}

theorem nodesAt_renamed {nodes : L → Set Node} {nodes' : M → Set Node'} (hn : ∀ l m, R l m → nodes' m = ν '' nodes l)
    (hR : List.Forall₂ R h h') (i : ℕ) : nodesAt nodes' h' i = ν '' nodesAt nodes h i := by
  ext y
  constructor
  · rintro ⟨m, hm, hy⟩
    obtain ⟨l, hl, hlm⟩ := forall₂_getElem?' hR hm
    rw [hn l m hlm] at hy
    obtain ⟨x, hx, rfl⟩ := hy
    exact ⟨x, ⟨l, hl, hx⟩, rfl⟩
  · rintro ⟨x, ⟨l, hl, hx⟩, rfl⟩
    obtain ⟨m, hm, hlm⟩ := forall₂_getElem? hR hl
    exact ⟨m, hm, hn l m hlm ▸ Set.mem_image_of_mem ν hx⟩

/-- **Other names** for the nodes leave the order as it is. -/
theorem beforeIn_renamed (hν : Function.Injective ν) (hr : ∀ l m, R l m → reads' m = ν '' reads l)
    (hw : ∀ l m, R l m → writes' m = ν '' writes l) (hR : List.Forall₂ R h h') :
    BeforeIn reads' writes' h' i j ↔ BeforeIn reads writes h i j := by
  have hdirect : Direct (nodesAt reads' h') (nodesAt writes' h') = Direct (nodesAt reads h) (nodesAt writes h) := by
    ext i j
    unfold Direct
    rw [nodesAt_renamed hr hR, nodesAt_renamed hw hR]
    constructor
    · rintro ⟨hij, -, ⟨x, hx, rfl⟩, y, hy, heq⟩
      exact ⟨hij, x, hx, hν heq ▸ hy⟩
    · rintro ⟨hij, x, hx, hx'⟩
      exact ⟨hij, ν x, Set.mem_image_of_mem ν hx, Set.mem_image_of_mem ν hx'⟩
  unfold BeforeIn Before
  rw [hdirect]

end Renamed

/-! ### Leaving places out -/

section Via

variable {Node : Type u} (reads writes : ℕ → Set Node) (keep : ℕ → Prop)

/-- A chain whose places in between are kept. -/
inductive Via : ℕ → ℕ → Prop where
  | single {i j : ℕ} (h : Direct reads writes i j) : Via i j
  | head {i m j : ℕ} (h : Direct reads writes i m) (hm : keep m) (hv : Via m j) : Via i j

variable {reads writes keep} {i j : ℕ}

/-- **Places that pass on one node** can be left out. -/
theorem Via.of_before (hskip : ∀ m, ¬ keep m → ∃ x, (∀ y ∈ reads m, y = x) ∧ ∀ y ∈ writes m, y = x)
    (h : Before reads writes i j) : Via reads writes keep i j := by
  induction h using TransGen.head_induction_on with
  | single h => exact .single h
  | @head i m h _ ih =>
    by_cases hm : keep m
    · exact .head h hm ih
    · obtain ⟨x, hr, hw⟩ := hskip m hm
      obtain ⟨him, y, hy, hym⟩ := h
      obtain rfl := hr y hym
      -- the next place reads the node that `i` writes
      cases ih with
      | single h' =>
        obtain ⟨hmj, z, hz, hzj⟩ := h'
        obtain rfl := hw z hz
        exact .single ⟨him.trans hmj, z, hy, hzj⟩
      | head h' hk hv =>
        obtain ⟨hmj, z, hz, hzj⟩ := h'
        obtain rfl := hw z hz
        exact .head ⟨him.trans hmj, z, hy, hzj⟩ hk hv

end Via

end CausalOrder
