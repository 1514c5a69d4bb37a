import Schnauzer.Core.Tid
import Schnauzer.Lib.CriticalSections

/-!
# The calls of `core/Tid`

`getNewTid`, `unregisterCurrThread` and `isThreadAlive` take the lock of `Control`. Here each is the statements that it
consists of, so that another thread may have its turn in the middle of one: after it has found a free entry of the
table, say, and before it has taken it. `__my_tid` is the thread's own. The lock is recursive, and none of them takes it
twice. `lookupTid` is left out: it reads the entry that it has found when it has given the lock back.

## What is proved

* `eval_section` — a call that no other interrupts is what `core/Tid` says.
* `calls_atomic` — in every run the calls are atomic.
-/

namespace Schnauzer

open Sessions

namespace Tid

/-- The statements. -/
inductive Stmt where
  | getNrThread
  /-- `__alive_thread_table[i]`. -/
  | alive (i : ℕ)
  /-- `freshTid()`. -/
  | freshTid
  /-- `__pthread_id_table[self] = t`. -/
  | setPthread (self t : ℕ)
  /-- `__alive_thread_table[t] = alive`. -/
  | setAlive (t : ℕ) (alive : Bool)

/-- What a statement does, and its value. -/
def act (s : Tids) : Stmt → Tids × ℕ
  | .getNrThread => (s, getNrThread s)
  | .alive i => (s, (s.aliveThreadTable i).toNat)
  | .freshTid => ((freshTid s).2, (freshTid s).1)
  | .setPthread self t => ({ s with pthreadIdTable := Function.update s.pthreadIdTable self (some t) }, 0)
  | .setAlive t alive => (setAlive s t alive, 0)

/-- The calls; `myTid` is the `__my_tid` of the thread. -/
inductive Call where
  | getNewTid (self myTid : ℕ)
  | unregisterCurrThread (myTid : ℕ)
  | isThreadAlive (t : ℕ)

/-- What they return. -/
inductive Answer where
  | tid (t : ℕ)
  | unregistered
  | alive (b : Bool)
deriving DecidableEq

/-- The loop of `getNewTid`, from `i` on, for at most so many rounds. -/
def searchFrom : ℕ → ℕ → Session Stmt ℕ (Option ℕ)
  | 0, _ => return none
  | rounds + 1, i => do
    let nrThread ← ask .getNrThread
    if i < nrThread then
      let alive ← ask (.alive i)
      if alive = 0 then return some i else searchFrom rounds (i + 1)
    else return none

/-- The loop, which is only run under `REUSE_TID`. -/
def searchUnder (reuseTid : Bool) : Session Stmt ℕ (Option ℕ) :=
  if reuseTid then searchFrom UInt8.size 0 else return none

/-- The rest of `getNewTid`. -/
def takeTid (self myTid : ℕ) : Session Stmt ℕ Answer := do
  let myTid ← if myTid = UNDEFINED_TID then ask .freshTid else pure myTid
  let _ ← ask (.setPthread self myTid)
  let _ ← ask (.setAlive myTid true)
  return .tid myTid

/-- The statements of a call between `globalLock` and `globalUnlock`. -/
def Call.section (reuseTid : Bool) : Call → Session Stmt ℕ Answer
  | .getNewTid self myTid => do
    let found ← searchUnder reuseTid
    takeTid self (found.getD myTid)
  | .unregisterCurrThread myTid =>
    match getCurrTid myTid with
    | some t => do
      let _ ← ask (.setAlive t false)
      return .unregistered
    | none => .stop
  | .isThreadAlive t => do
    let alive ← ask (.alive t)
    return .alive (alive ≠ 0)

/-- A call in one step. -/
def Call.apply (reuseTid : Bool) (s : Tids) : Call → Option (Tids × Answer)
  | .getNewTid self myTid =>
    let r := Tid.getNewTid reuseTid self myTid s
    some (r.2, .tid r.1)
  | .unregisterCurrThread myTid => (Tid.unregisterCurrThread myTid s).map fun s' => (s', .unregistered)
  | .isThreadAlive t => some (s, .alive (Tid.isThreadAlive t s))

/-- Threads that call, and what they share. -/
abbrev Callers := Sessions.Config (Sessions.Guarded Tids) (Locking Stmt) (Option ℕ) Answer

/-- Threads that call, statement by statement. -/
def runCalls (reuseTid : Bool) (acts : List (Sessions.Act Call)) : Option Callers :=
  Runs.exec (Sessions.step (lockingExec act) fun call => (call.section reuseTid).guarded) ⟨⟨Tid.init, none⟩, []⟩ acts

/-- The calls one after the other, each in one step; nothing where one of them does not return what is given. -/
def replay (reuseTid : Bool) (calls : List Call) (log : List (ℕ × Answer)) : Option Tids :=
  log.foldlM (fun s x => do
    let call ← calls[x.1]?
    let r ← call.apply reuseTid s
    if r.2 = x.2 then return r.1 else none) Tid.init

variable {reuseTid : Bool} {s s' : Tids} {call : Call} {calls : List Call} {log : List (ℕ × Answer)}

/-! ### A call by itself -/

theorem eval_ask_bind {α : Type} (q : Stmt) (f : ℕ → Session Stmt ℕ α) :
    (ask q >>= f).eval act s = (f (act s q).2).eval act (act s q).1 := rfl

theorem eval_searchFrom {rounds i : ℕ} (h : getNrThread s ≤ i + rounds) : (searchFrom rounds i).eval act s =
    (s, some ((List.range' i (getNrThread s - i)).find? fun j => !s.aliveThreadTable j)) := by
  induction rounds generalizing i with
  | zero =>
    rw [Nat.add_zero] at h
    rw [Nat.sub_eq_zero_of_le h]
    rfl
  | succ rounds ih =>
    rw [searchFrom, eval_ask_bind]
    change (if i < getNrThread s then _ else _ : Session Stmt ℕ (Option ℕ)).eval act s = _
    split_ifs with hi
    · obtain ⟨n, hn⟩ : ∃ n, getNrThread s - i = n + 1 := ⟨getNrThread s - i - 1, by omega⟩
      rw [eval_ask_bind, hn, List.range'_succ, List.find?_cons]
      change (if (s.aliveThreadTable i).toNat = 0 then _ else _ : Session Stmt ℕ (Option ℕ)).eval act s = _
      cases s.aliveThreadTable i with
      | false => rfl
      | true =>
        have hrest : n = getNrThread s - (i + 1) := by omega
        rw [hrest]
        exact ih (by omega)
    · rw [Nat.sub_eq_zero_of_le (not_lt.mp hi)]
      rfl

theorem eval_searchUnder (h : s.tidCounter < UInt8.size) : (searchUnder reuseTid).eval act s =
    (s, some (if reuseTid then deadEntry s else none)) := by
  cases reuseTid with
  | false => rfl
  | true =>
    rw [searchUnder, if_pos rfl, if_pos rfl, eval_searchFrom (h.le.trans (Nat.le_add_left _ 0)), deadEntry,
      Nat.sub_zero, ← List.range_eq_range']

/-- **A call that no other interrupts** is what `core/Tid` says. -/
theorem eval_section (h : s.tidCounter < UInt8.size) : (call.section reuseTid).eval act s =
    (call.apply reuseTid s).elim (s, none) fun r => (r.1, some r.2) := by
  cases call with
  | isThreadAlive t =>
    rw [Call.section, eval_ask_bind]
    change (s, some (Answer.alive ((s.aliveThreadTable t).toNat ≠ 0))) = _
    rw [Call.apply, Option.elim_some, isThreadAlive]
    cases s.aliveThreadTable t <;> rfl
  | unregisterCurrThread myTid =>
    rw [Call.section, Call.apply, unregisterCurrThread]
    cases getCurrTid myTid with
    | none => rfl
    | some t => rfl
  | getNewTid self myTid =>
    rw [Call.section, Call.apply]
    refine (Session.eval_bind _ _ _).trans ?_
    rw [eval_searchUnder h, Tid.getNewTid]
    change (takeTid self _).eval act s = _
    have hmyTid : (if reuseTid then (deadEntry s).getD myTid else myTid) =
        (if reuseTid then deadEntry s else none).getD myTid := by
      cases reuseTid <;> rfl
    rw [hmyTid]
    generalize (if reuseTid then deadEntry s else none).getD myTid = t
    rw [takeTid]
    by_cases ht : t = UNDEFINED_TID
    · simp only [if_pos ht]
      rfl
    · simp only [if_neg ht]
      rfl

theorem setAlive_tidCounter (s : Tids) (t : ℕ) (alive : Bool) : (setAlive s t alive).tidCounter = s.tidCounter := by
  rw [setAlive]
  split_ifs <;> rfl

/-- The counter is a `uint8_t`. -/
theorem tidCounter_of_apply {r : Tids × Answer} (h : s.tidCounter < UInt8.size)
    (happly : call.apply reuseTid s = some r) : r.1.tidCounter < UInt8.size := by
  cases call with
  | isThreadAlive t =>
    cases happly
    exact h
  | unregisterCurrThread myTid =>
    obtain ⟨s', hs', rfl⟩ := Option.map_eq_some_iff.mp happly
    obtain ⟨t, -, rfl⟩ := Option.map_eq_some_iff.mp hs'
    rwa [setAlive_tidCounter]
  | getNewTid self myTid =>
    cases happly
    rw [Tid.getNewTid]
    simp only [setAlive_tidCounter]
    generalize (if reuseTid then (deadEntry s).getD myTid else myTid) = t
    split_ifs
    · exact Nat.mod_lt _ (by decide)
    · exact h

/-! ### Runs -/

/-- The calls that were made one after the other can be made in one step each. -/
theorem replay_of_serves (h : Serves act (Call.section reuseTid) calls log Tid.init s) :
    replay reuseTid calls log = some s ∧ s.tidCounter < UInt8.size := by
  generalize hd : Tid.init = d at h
  induction h with
  | nil =>
    subst hd
    exact ⟨rfl, by decide⟩
  | @snoc log d₀ d d' t call a hserves ht heval ih =>
    obtain ⟨hreplay, hlt⟩ := ih hd
    rw [eval_section hlt] at heval
    cases happly : call.apply reuseTid d with
    | none =>
      rw [happly] at heval
      cases heval
    | some r =>
      rw [happly] at heval
      cases heval
      refine ⟨?_, tidCounter_of_apply hlt happly⟩
      rw [replay] at hreplay ⊢
      rw [List.foldlM_append, hreplay]
      simp [ht, happly]

/-- The calls are atomic: they return what they do when each is one step. -/
structure Atomic (reuseTid : Bool) (calls : List Call) (log : List (ℕ × Answer)) (c : Callers) : Prop where
  /-- The calls in this order, each in one step, return the same, and come to the same when no thread is in one. -/
  replayed : ∃ s, replay reuseTid calls log = some s ∧ (c.shared.holder = none → c.shared.data = s)
  /-- These are the calls that have returned. -/
  returned : ∀ (t : ℕ) a, c.sessions[t]? = some (.done a) ↔ (t, a) ∈ log
  once : (log.map Prod.fst).Nodup
  /-- If a call has not returned, a thread goes on, unless an `assert` has failed. -/
  live : (∀ t : ℕ, c.sessions[t]? ≠ some .stop) → ∀ (t : ℕ) q k, c.sessions[t]? = some (.exec q k) →
    ∃ t' c', Sessions.next (lockingExec act) c t' = some c'

theorem atomic_of_serialised {c : Callers} (h : Serialised act (Call.section reuseTid) Tid.init calls log c) :
    Atomic reuseTid calls log c := by
  obtain ⟨s, hserves, hfree, -⟩ := h.served
  exact ⟨⟨s, (replay_of_serves hserves).1, hfree⟩, h.done_iff, h.nodup,
    fun hstop _ _ _ ht => h.exists_next ht hstop⟩

/-- **The calls are atomic**, however their statements are interleaved, in an order in which a call that has returned
comes before all that are made later. -/
theorem calls_atomic {as bs : List (Sessions.Act Call)} {c c' : Callers} (h : runCalls reuseTid as = some c)
    (h' : runCalls reuseTid (as ++ bs) = some c') : ∃ log more,
      Atomic reuseTid (started as) log c ∧ Atomic reuseTid (started (as ++ bs)) (log ++ more) c' := by
  obtain ⟨log, hlog⟩ := serialised_of_exec (serialised_init Tid.init) h
  obtain ⟨c₁, hc₁, hc'⟩ := Runs.exec_append_eq_some.mp h'
  obtain rfl := Option.some.inj (h.symm.trans hc₁)
  obtain ⟨more, hmore⟩ := serialised_of_exec hlog hc'
  rw [List.nil_append, List.nil_append] at hlog hmore
  refine ⟨log, more, atomic_of_serialised hlog, ?_⟩
  rw [started, List.filterMap_append]
  exact atomic_of_serialised hmore

/-- A thread registers while another does. -/
def twoRegister : List (Sessions.Act Call) :=
  [.start (.getNewTid 7 UNDEFINED_TID), .next 0, .start (.getNewTid 8 UNDEFINED_TID)] ++ List.replicate 5 (.next 0)

/-- The other registers, and the first unregisters. -/
def oneUnregisters : List (Sessions.Act Call) :=
  List.replicate 8 (.next 1) ++ [.start (.unregisterCurrThread 0)] ++ List.replicate 3 (.next 2)

theorem calls_atomic_twoRegister : ∃ c c', runCalls true twoRegister = some c ∧
    runCalls true (twoRegister ++ oneUnregisters) = some c' ∧ ∃ log more, Atomic true (started twoRegister) log c ∧
      Atomic true (started (twoRegister ++ oneUnregisters)) (log ++ more) c' :=
  ⟨_, _, rfl, rfl, calls_atomic rfl rfl⟩

end Tid

end Schnauzer
