import Mathlib.Algebra.BigOperators.Group.Finset.Piecewise
import Mathlib.Algebra.Order.BigOperators.Group.List
import Mathlib.Algebra.Ring.Int.Defs
import Mathlib.Data.Int.Order.Basic

/-!
# Ledgers

A ledger is a list of postings, each of an amount to one column of one account. Nothing is assumed of the order of the
postings, nor that the accounts of two postings are different.

## What is proved

* `balance_le_total` — when nothing negative is posted, no balance is above its column's total.
* `sum_balance` — the balances of a column add up to the amounts posted in it.
-/

namespace Ledger

/-- An amount posted to a column of an account. -/
structure Posting (α κ : Type*) where
  account : α
  column : κ
  amount : ℤ

variable {α κ : Type*} {ps qs : List (Posting α κ)} {a : α} {c : κ}

/-- Nothing negative is posted. -/
def Credits (ps : List (Posting α κ)) : Prop := ∀ p ∈ ps, 0 ≤ p.amount

theorem Credits.append (hps : Credits ps) (hqs : Credits qs) : Credits (ps ++ qs) :=
  List.forall_mem_append.mpr ⟨hps, hqs⟩

/-! ### Columns -/

variable [DecidableEq κ]

/-- What is posted to a column. -/
def total (ps : List (Posting α κ)) (c : κ) : ℤ := (ps.map fun p => if p.column = c then p.amount else 0).sum

@[simp] theorem total_nil : total ([] : List (Posting α κ)) c = 0 := rfl

@[simp] theorem total_cons (p : Posting α κ) :
    total (p :: ps) c = (if p.column = c then p.amount else 0) + total ps c := List.sum_cons

theorem total_append : total (ps ++ qs) c = total ps c + total qs c := by
  rw [total, List.map_append, List.sum_append]
  rfl

/-- The total of a column, transaction by transaction. -/
theorem total_flatMap {τ : Type*} (transactions : List τ) (postings : τ → List (Posting α κ)) :
    total (transactions.flatMap postings) c = (transactions.map fun t => total (postings t) c).sum := by
  induction transactions with
  | nil => rfl
  | cons t transactions ih => rw [List.flatMap_cons, total_append, ih, List.map_cons, List.sum_cons]

theorem Credits.total_nonneg (h : Credits ps) : 0 ≤ total ps c := by
  apply List.sum_nonneg
  intro x hx
  obtain ⟨p, hp, rfl⟩ := List.mem_map.mp hx
  split_ifs
  · exact h p hp
  · exact le_rfl

/-! ### Accounts -/

variable [DecidableEq α]

/-- What is posted to a column of an account. -/
def balance (ps : List (Posting α κ)) (a : α) (c : κ) : ℤ :=
  (ps.map fun p => if p.account = a ∧ p.column = c then p.amount else 0).sum

@[simp] theorem balance_nil : balance ([] : List (Posting α κ)) a c = 0 := rfl

@[simp] theorem balance_cons (p : Posting α κ) :
    balance (p :: ps) a c = (if p.account = a ∧ p.column = c then p.amount else 0) + balance ps a c := List.sum_cons

theorem balance_append : balance (ps ++ qs) a c = balance ps a c + balance qs a c := by
  rw [balance, List.map_append, List.sum_append]
  rfl

theorem Credits.balance_nonneg (h : Credits ps) : 0 ≤ balance ps a c := by
  apply List.sum_nonneg
  intro x hx
  obtain ⟨p, hp, rfl⟩ := List.mem_map.mp hx
  split_ifs
  · exact h p hp
  · exact le_rfl

/-- **A balance** is part of the total of its column. -/
theorem Credits.balance_le_total (h : Credits ps) : balance ps a c ≤ total ps c := by
  apply List.sum_le_sum
  intro p hp
  by_cases ha : p.account = a
  · simp [ha]
  · simp only [ha, false_and, if_false]
    split_ifs
    · exact h p hp
    · exact le_rfl

/-- **The balances of a column** add up to what is posted in it. -/
theorem sum_balance {s : Finset α} (h : ∀ p ∈ ps, p.account ∈ s) : ∑ a ∈ s, balance ps a c = total ps c := by
  induction ps with
  | nil => exact Finset.sum_const_zero
  | cons p ps ih =>
    obtain ⟨hp, hps⟩ := List.forall_mem_cons.mp h
    have hone : (∑ a ∈ s, if p.account = a ∧ p.column = c then p.amount else 0) =
        if p.column = c then p.amount else 0 := by
      by_cases hc : p.column = c
      · simp [hc, hp]
      · simp [hc]
    simp only [balance_cons, total_cons, Finset.sum_add_distrib, ih hps, hone]

end Ledger
