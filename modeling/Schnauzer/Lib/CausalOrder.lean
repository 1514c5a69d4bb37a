import Mathlib.Logic.Relation
import Mathlib.Data.Set.Basic
import Mathlib.Order.Basic

/-!
# Causal order

Events are numbered `0, 1, 2, …` in the order in which they are recorded. Each
event *reads* a set of nodes and *writes* a set of nodes; a node is anything that
carries knowledge from one event to another (a thread, a lock, a message). Event
`i` directly precedes event `j` when it comes first and writes a node that `j`
reads, and the causal order is the transitive closure.

## What is proved

* `before_iff_known` — `i` precedes `j` exactly when one of the nodes that `j`
  reads knows `i`, where a node *knows* the events that reached it so far
  (`Known`).
* `known_succ` — how the knowledge of a node changes with one event: a node that
  is written learns the event and all that the event has read.
* `before_of_simulation` — one causal order is inside another when every direct
  precedence of the first is matched in the second.
* `before_of_simulation_from` — it is so for some events when the other direct precedences
  tell nothing of them.
-/

namespace CausalOrder

open Relation

universe u v

variable {Node : Type u} {Node' : Type v}

section Order

variable (reads writes : ℕ → Set Node)

/-- Event `i` directly precedes event `j`. -/
def Direct (i j : ℕ) : Prop := i < j ∧ ∃ x, x ∈ writes i ∧ x ∈ reads j

/-- The causal order. -/
def Before : ℕ → ℕ → Prop := TransGen (Direct reads writes)

/-- The events that node `x` knows once the first `k` events have happened: those
that wrote it, and those that precede one that wrote it. -/
def Known (k : ℕ) (x : Node) : Set ℕ :=
  {i | ∃ j, j < k ∧ x ∈ writes j ∧ (i = j ∨ Before reads writes i j)}

end Order

variable {reads writes : ℕ → Set Node}

theorem Direct.lt {i j : ℕ} (h : Direct reads writes i j) : i < j := h.1

theorem Before.lt {i j : ℕ} (h : Before reads writes i j) : i < j := by
  induction h with
  | single h => exact h.lt
  | tail _ h ih => exact ih.trans h.lt

theorem Before.single {i j : ℕ} (h : Direct reads writes i j) : Before reads writes i j :=
  TransGen.single h

theorem Before.trans {i j k : ℕ} (h₁ : Before reads writes i j) (h₂ : Before reads writes j k) :
    Before reads writes i k :=
  TransGen.trans h₁ h₂

/-- Nothing comes between neighbours. -/
theorem Before.direct_of_succ {i : ℕ} (h : Before reads writes i (i + 1)) : Direct reads writes i (i + 1) := by
  obtain ⟨m, hm, hd⟩ := TransGen.tail'_iff.mp h
  rcases reflTransGen_iff_eq_or_transGen.mp hm with rfl | hm
  · exact hd
  · exact absurd hd.lt (not_lt.mpr (Before.lt hm))

/-- A node knows only events that have happened. -/
theorem lt_of_known {i k : ℕ} {x : Node} (h : i ∈ Known reads writes k x) : i < k := by
  obtain ⟨j, hj, -, rfl | hij⟩ := h
  · exact hj
  · exact hij.lt.trans hj

/-- An event is known to the nodes it writes. -/
theorem known_of_writes {i k : ℕ} {x : Node} (hi : i < k) (hx : x ∈ writes i) :
    i ∈ Known reads writes k x :=
  ⟨i, hi, hx, Or.inl rfl⟩

/-- Nodes do not forget. -/
theorem known_mono {i k l : ℕ} {x : Node} (hkl : k ≤ l) (h : i ∈ Known reads writes k x) :
    i ∈ Known reads writes l x := by
  obtain ⟨j, hj, hx, hij⟩ := h
  exact ⟨j, hj.trans_le hkl, hx, hij⟩

/-- **The order is what the nodes know**: `i` precedes `j` exactly when one of the nodes
that `j` reads knows `i`. -/
theorem before_iff_known {i j : ℕ} :
    Before reads writes i j ↔ ∃ x ∈ reads j, i ∈ Known reads writes j x := by
  constructor
  · intro h
    obtain ⟨m, hm, hlt, x, hw, hr⟩ := TransGen.tail'_iff.mp h
    refine ⟨x, hr, m, hlt, hw, ?_⟩
    rcases reflTransGen_iff_eq_or_transGen.mp hm with rfl | hm
    · exact Or.inl rfl
    · exact Or.inr hm
  · rintro ⟨x, hr, m, hlt, hw, rfl | him⟩
    · exact .single ⟨hlt, x, hw, hr⟩
    · exact him.trans (.single ⟨hlt, x, hw, hr⟩)

/-- Before anything has happened a node knows nothing. -/
@[simp] theorem not_known_zero (i : ℕ) (x : Node) : i ∉ Known reads writes 0 x :=
  fun ⟨_, hj, _⟩ => Nat.not_lt_zero _ hj

/-- **One event**: a node that event `k` writes learns `k` and what `k` has read; every
other node knows what it knew. -/
theorem known_succ {i k : ℕ} {x : Node} :
    i ∈ Known reads writes (k + 1) x ↔
      i ∈ Known reads writes k x ∨
        x ∈ writes k ∧ (i = k ∨ ∃ y ∈ reads k, i ∈ Known reads writes k y) := by
  constructor
  · rintro ⟨j, hj, hx, hij⟩
    rcases Nat.lt_succ_iff_lt_or_eq.mp hj with hj | rfl
    · exact Or.inl ⟨j, hj, hx, hij⟩
    · rw [before_iff_known] at hij
      exact Or.inr ⟨hx, hij⟩
  · rintro (h | ⟨hx, h⟩)
    · exact known_mono k.le_succ h
    · rw [← before_iff_known] at h
      exact ⟨k, k.lt_succ_self, hx, h⟩

section Simulation

variable {reads' writes' : ℕ → Set Node'}

/-- **Simulation from some events**: every direct precedence is matched, through a map `f` of the events, by equality
or by the other order, or it leads on from an event that is none of them and adds nothing to what they precede. -/
theorem before_of_simulation_from {P : ℕ → Prop} (f : ℕ → ℕ)
    (hf : ∀ i j, Direct reads writes i j → f i = f j ∨ Before reads' writes' (f i) (f j) ∨
      ¬ P (f i) ∧ ∀ k, P k → Before reads' writes' k (f i) → Before reads' writes' k (f j))
    {i j : ℕ} (hi : P (f i)) (h : Before reads writes i j) : f i = f j ∨ Before reads' writes' (f i) (f j) := by
  induction h with
  | single hd =>
    rcases hf _ _ hd with heq | hb | ⟨hno, -⟩
    · exact Or.inl heq
    · exact Or.inr hb
    · exact absurd hi hno
  | tail _ hd ih =>
    rcases hf _ _ hd with heq | hb | ⟨hno, hleads⟩
    · rw [← heq]
      exact ih
    · rcases ih with ih | ih
      · exact Or.inr (ih ▸ hb)
      · exact Or.inr (ih.trans hb)
    · rcases ih with ih | ih
      · exact absurd (ih ▸ hi) hno
      · exact Or.inr (hleads _ hi ih)

/-- **Simulation**: if every direct precedence is matched, through a map `f` of the
events, by equality or by the other order, then so is the causal order. -/
theorem before_of_simulation (f : ℕ → ℕ)
    (hf : ∀ i j, Direct reads writes i j → f i = f j ∨ Before reads' writes' (f i) (f j)) {i j : ℕ}
    (h : Before reads writes i j) : f i = f j ∨ Before reads' writes' (f i) (f j) :=
  before_of_simulation_from (P := fun _ => True) f (fun i j hd => (hf i j hd).imp_right Or.inl) trivial h

end Simulation

end CausalOrder
