import Mathlib.Logic.Relation
import Mathlib.Data.Option.Basic
import Mathlib.Data.List.Induction
import Mathlib.Tactic.SplitIfs

/-!
# Runs of a machine

A machine is a function `step` from a state and an action to the next state, where the
action can be taken. A run takes actions one after the other; `Reach step P` is a run whose
every action satisfies a condition `P` in the state in which it is taken.

## What is proved

* `Reach.invariant` — what every such action keeps holds at the end if it held at the start.
* `Reach.of_exec` — a list of actions that can be taken where they satisfy `P` is a run.
* `exec_invariant` — invariants that speak of the actions taken, too.
-/

namespace Runs

universe u v

variable {S : Type u} {A : Type v} (step : S → A → Option S) (P : S → A → Prop)

/-- A run from one state to another whose actions all satisfy `P`. -/
inductive Reach (s : S) : S → Prop where
  /-- No action. -/
  | refl : Reach s s
  /-- One more action. -/
  | tail {s₁ s₂ : S} {a : A} (h : Reach s s₁) (ha : P s₁ a) (hs : step s₁ a = some s₂) : Reach s s₂

/-- Take the actions of a list. -/
def exec (s : S) : List A → Option S
  | [] => some s
  | a :: as => (step s a).bind fun s' => exec s' as

/-- Take actions only where they satisfy `P`. -/
def restrict [∀ s a, Decidable (P s a)] (s : S) (a : A) : Option S := if P s a then step s a else none

variable {step P} {s s₁ s₂ : S}

theorem Reach.trans (h₁ : Reach step P s s₁) (h₂ : Reach step P s₁ s₂) : Reach step P s s₂ := by
  induction h₂ with
  | refl => exact h₁
  | tail _ ha hs ih => exact .tail ih ha hs

theorem Reach.single {a : A} (ha : P s a) (hs : step s a = some s₁) : Reach step P s s₁ :=
  .tail .refl ha hs

theorem Reach.mono {Q : S → A → Prop} (hPQ : ∀ s a, P s a → Q s a) (h : Reach step P s s₁) :
    Reach step Q s s₁ := by
  induction h with
  | refl => exact .refl
  | tail _ ha hs ih => exact .tail ih (hPQ _ _ ha) hs

/-- **Invariants**: what every action of a run keeps. -/
theorem Reach.invariant {I : S → Prop} (h : Reach step P s s₁) (hI : I s)
    (hstep : ∀ s a s', I s → P s a → step s a = some s' → I s') : I s₁ := by
  induction h with
  | refl => exact hI
  | tail _ ha hs ih => exact hstep _ _ _ ih ha hs

/-- A list of actions that can be taken, each where it satisfies `P`, is a run. -/
theorem Reach.of_exec [∀ s a, Decidable (P s a)] {as : List A}
    (h : exec (restrict step P) s as = some s₁) : Reach step P s s₁ := by
  induction as generalizing s with
  | nil =>
    cases h
    exact .refl
  | cons a as ih =>
    obtain ⟨s', hs', h⟩ := Option.bind_eq_some_iff.mp h
    unfold restrict at hs'
    split_ifs at hs' with ha
    exact (Reach.single ha hs').trans (ih h)

theorem exec_append {as bs : List A} :
    exec step s (as ++ bs) = (exec step s as).bind fun s' => exec step s' bs := by
  induction as generalizing s with
  | nil => rfl
  | cons a as ih =>
    rw [List.cons_append, exec, exec, Option.bind_assoc]
    exact congrArg _ (funext fun _ => ih)

theorem exec_append_eq_some {as bs : List A} :
    exec step s (as ++ bs) = some s₂ ↔ ∃ s₁, exec step s as = some s₁ ∧ exec step s₁ bs = some s₂ := by
  rw [exec_append]
  exact Option.bind_eq_some_iff

/-- Invariants of the state and of the actions taken so far. -/
theorem exec_invariant {I : List A → S → Prop} {as : List A} (h : exec step s as = some s₁) (hI : I [] s)
    (hstep : ∀ as s a s', I as s → step s a = some s' → I (as ++ [a]) s') : I as s₁ := by
  induction as using List.reverseRecOn generalizing s₁ with
  | nil =>
    cases h
    exact hI
  | append_singleton as a ih =>
    obtain ⟨s', hs', h⟩ := exec_append_eq_some.mp h
    obtain ⟨s'', hs'', h⟩ := Option.bind_eq_some_iff.mp h
    cases h
    exact hstep _ _ _ _ (ih hs') hs''

end Runs
