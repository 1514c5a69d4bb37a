import Schnauzer.Common.Event
import Schnauzer.Common.Yaml
import Schnauzer.Lib.Ledger

/-!
# The summary of the threads

`analyze/detect/ThreadSummary`: the counters of each thread. A counter is an `int64_t` in a table of names; a sum that
does not fit wraps around. `__thread_summary_table` is the set of its keys and a total function.

## What is proved

* `Represents.incItem` — an increment is a posting to a ledger whose accounts are the threads.
* `Represents.post` — **increments, one after the other**: as long as the totals fit, no `assert` fails.
* `Represents.sum_eq` — a counter, summed over the threads, is the total of its column.
-/

namespace Schnauzer

open Ledger

/-- The conversion to `int64_t`. -/
def toInt64 (x : ℤ) : ℤ := x.bmod (2 ^ 64)

theorem toInt64_eq {x : ℤ} (h₀ : 0 ≤ x) (h : x < 2 ^ 63) : toInt64 x = x := Int.bmod_eq_of_le (by omega) (by omega)

/-- Subtraction, of two converted numbers. -/
theorem toInt64_sub (x y : ℤ) : toInt64 (toInt64 x - toInt64 y) = toInt64 (x - y) := (Int.sub_bmod x y _).symm

/-- `nr_event`. -/
def nrEvent : List Char := "nr_event".toList

/-- `__item_names`. -/
def itemNames : List (List Char) :=
  [nrEvent, "nr_before_event_race".toList, "nr_after_event_race".toList, "before_event_race_distance".toList,
    "after_event_race_distance".toList, "nr_before_sync_hb".toList, "nr_after_sync_hb".toList,
    "before_sync_hb_distance".toList, "after_sync_hb_distance".toList]

/-! ### The counters of a thread -/

/-- The loop of the constructor of `SummaryItem`. -/
def addZeros (names : List (List Char)) (table : Yaml.Table) : Yaml.Table :=
  names.foldl (fun table name => Yaml.addValue name (.number 0) table) table

theorem getNumber_addZeros {names : List (List Char)} {table : Yaml.Table} {name : List Char} :
    Yaml.getNumber (addZeros names table) name = if name ∈ names then some 0 else Yaml.getNumber table name := by
  induction names generalizing table with
  | nil => rfl
  | cons k names ih =>
    rw [addZeros, List.foldl_cons, ← addZeros, ih, Yaml.getNumber_addValue]
    by_cases hk : name = k
    · simp [hk]
    · simp [hk]

/-- `SummaryItem`. -/
structure SummaryItem where
  /-- `yaml_`. -/
  yaml : Yaml.Table
  /-- There is a number for every name. -/
  numbers : ∀ name ∈ itemNames, (Yaml.getNumber yaml name).isSome

namespace SummaryItem

/-- The constructor of `SummaryItem`. -/
def new : SummaryItem where
  yaml := addZeros itemNames []
  numbers := fun name hname => by rw [getNumber_addZeros, if_pos hname, Option.isSome_some]

/-- `yaml_->getNumber`, of a known name. -/
def getNumber (item : SummaryItem) (name : List Char) (h : name ∈ itemNames) : ℤ :=
  (Yaml.getNumber item.yaml name).get (item.numbers name h)

/-- `yaml_->setNumber`, of a known name. -/
def setNumber (item : SummaryItem) (name : List Char) (v : ℤ) : SummaryItem where
  yaml := Yaml.addValue name (.number v) item.yaml
  numbers := fun name' hname => by
    rw [Yaml.getNumber_addValue]
    split_ifs
    · rfl
    · exact item.numbers name' hname

/-- `SummaryItem::incItem`. -/
def incItem (item : SummaryItem) (name : List Char) (v : ℤ) : Except Abort SummaryItem :=
  if h : itemNames.contains name then
    if 0 < v then .ok (item.setNumber name (toInt64 (item.getNumber name (List.contains_iff_mem.mp h) + v)))
    else .error .incItem
  else .error .incItem

/-- The value of a counter. -/
def number (item : SummaryItem) (name : List Char) : ℤ := (Yaml.getNumber item.yaml name).getD 0

variable {item : SummaryItem} {name name' : List Char} {v : ℤ}

@[simp] theorem number_new : new.number name = 0 := by
  rw [number, new, getNumber_addZeros]
  split_ifs <;> rfl

@[simp] theorem number_setNumber : (item.setNumber name v).number name' =
    if name' = name then v else item.number name' := by
  rw [number, setNumber, Yaml.getNumber_addValue]
  split_ifs <;> rfl

theorem getNumber_eq (h : name ∈ itemNames) : item.getNumber name h = item.number name :=
  Option.get_eq_getD _

/-- An increment that no `assert` refuses. -/
theorem incItem_ok (hname : name ∈ itemNames) (hv : 0 < v) :
    item.incItem name v = .ok (item.setNumber name (toInt64 (item.number name + v))) := by
  rw [incItem, dif_pos (List.contains_iff_mem.mpr hname), if_pos hv, getNumber_eq]

end SummaryItem

/-! ### The table -/

/-- `__thread_summary_table`. -/
structure ThreadSummary where
  /-- Its keys. -/
  tids : Finset ℕ
  /-- Its entries. -/
  items : ℕ → SummaryItem
  /-- Behind the keys there is nothing yet. -/
  fresh : ∀ t ∉ tids, items t = .new

namespace ThreadSummary

/-- The table that the program starts with. -/
def empty : ThreadSummary := ⟨∅, fun _ => .new, fun _ _ => rfl⟩

/-- `getThreadSummary`: afterwards there is an entry. -/
def getThreadSummary (summary : ThreadSummary) (tid : ℕ) : ThreadSummary where
  tids := insert tid summary.tids
  items := summary.items
  fresh := fun t ht => summary.fresh t fun h => ht (Finset.mem_insert_of_mem h)

/-- `incItem`, through the reference to an entry. -/
def incItem (summary : ThreadSummary) (tid : ℕ) (name : List Char) (v : ℤ) : Except Abort ThreadSummary := do
  let item ← (summary.items tid).incItem name v
  return {
    tids := insert tid summary.tids
    items := Function.update summary.items tid item
    fresh := fun t ht => by
      rw [Finset.mem_insert, not_or] at ht
      rw [Function.update_of_ne ht.1, summary.fresh t ht.2] }

/-- A counter, summed over the threads. -/
def sum (summary : ThreadSummary) (name : List Char) : ℤ := ∑ t ∈ summary.tids, (summary.items t).number name

/-- Increments, one after the other. -/
def post (summary : ThreadSummary) : List (Posting ℕ (List Char)) → Except Abort ThreadSummary
  | [] => .ok summary
  | p :: ps => do
    let summary ← summary.incItem p.account p.column p.amount
    summary.post ps

/-- The counters are the balances of a ledger. -/
structure Represents (summary : ThreadSummary) (ps : List (Posting ℕ (List Char))) : Prop where
  accounts : ∀ p ∈ ps, p.account ∈ summary.tids
  numbers : ∀ t name, (summary.items t).number name = balance ps t name

/-- Increments that no `assert` refuses. -/
def Postable (ps : List (Posting ℕ (List Char))) : Prop := ∀ p ∈ ps, p.column ∈ itemNames ∧ 0 < p.amount

variable {summary : ThreadSummary} {ps qs : List (Posting ℕ (List Char))} {name : List Char} {v : ℤ}

theorem Postable.credits (h : Postable ps) : Credits ps := fun p hp => (h p hp).2.le

theorem Postable.append (hps : Postable ps) (hqs : Postable qs) : Postable (ps ++ qs) :=
  List.forall_mem_append.mpr ⟨hps, hqs⟩

theorem Represents.empty : empty.Represents [] := ⟨by rintro _ ⟨⟩, fun _ _ => SummaryItem.number_new⟩

theorem Represents.getThreadSummary (h : summary.Represents ps) (tid : ℕ) :
    (summary.getThreadSummary tid).Represents ps :=
  ⟨fun p hp => Finset.mem_insert_of_mem (h.accounts p hp), h.numbers⟩

/-- **An increment** is a posting. -/
theorem Represents.incItem (h : summary.Represents ps) (tid : ℕ) (hps : Credits ps) (hname : name ∈ itemNames)
    (hv : 0 < v) (hfit : total ps name + v < 2 ^ 63) :
    ∃ summary', summary.incItem tid name v = .ok summary' ∧ summary'.Represents (ps ++ [⟨tid, name, v⟩]) := by
  refine ⟨_, bind_eq_ok.mpr ⟨_, SummaryItem.incItem_ok hname hv, rfl⟩, fun p hp => ?_, fun t name' => ?_⟩
  · obtain hp | hp := List.mem_append.mp hp
    · exact Finset.mem_insert_of_mem (h.accounts p hp)
    · cases List.mem_singleton.mp hp
      exact Finset.mem_insert_self _ _
  -- the sum fits, since the balance is part of the total
  have hle := hps.balance_le_total (a := tid) (c := name)
  have hsum : toInt64 ((summary.items tid).number name + v) = balance ps tid name + v := by
    rw [h.numbers]
    exact toInt64_eq (add_nonneg hps.balance_nonneg hv.le) (by omega)
  rw [balance_append, balance_cons, balance_nil, add_zero]
  dsimp only
  by_cases ht : t = tid
  · subst ht
    rw [Function.update_self, SummaryItem.number_setNumber, hsum]
    by_cases hn : name' = name
    · subst hn
      simp
    · rw [if_neg hn, if_neg fun h => hn h.2.symm, h.numbers, add_zero]
  · rw [Function.update_of_ne ht, if_neg fun h => ht h.1.symm, h.numbers, add_zero]

/-- **Increments, one after the other.** -/
theorem Represents.post (h : summary.Represents ps) (hps : Credits ps) (hqs : Postable qs)
    (hfit : ∀ c, total (ps ++ qs) c < 2 ^ 63) :
    ∃ summary', summary.post qs = .ok summary' ∧ summary'.Represents (ps ++ qs) := by
  induction qs generalizing ps summary with
  | nil => exact ⟨summary, rfl, by rwa [List.append_nil]⟩
  | cons q qs ih =>
    obtain ⟨⟨hname, hv⟩, hqs⟩ := List.forall_mem_cons.mp hqs
    have hq : Credits [q] := fun p hp => by
      cases List.mem_singleton.mp hp
      exact hv.le
    have hnonneg := (Postable.credits hqs).total_nonneg (c := q.column)
    have htotal := hfit q.column
    rw [total_append, total_cons, if_pos rfl] at htotal
    obtain ⟨summary₁, hinc, h₁⟩ := h.incItem q.account hps hname hv (by omega)
    rw [List.append_cons] at hfit ⊢
    obtain ⟨summary', hpost, h'⟩ := ih h₁ (hps.append hq) hqs hfit
    exact ⟨summary', bind_eq_ok.mpr ⟨summary₁, hinc, hpost⟩, h'⟩

/-- **The sum over the threads** is what was posted. -/
theorem Represents.sum_eq (h : summary.Represents ps) : summary.sum name = total ps name := by
  rw [sum, ← sum_balance h.accounts]
  exact Finset.sum_congr rfl fun t _ => h.numbers t name

end ThreadSummary

end Schnauzer
