import Mathlib.Algebra.Ring.Nat
import Mathlib.Data.Int.Basic
import Mathlib.Logic.Function.Basic

/-!
# Money and epochs

`runtime/sched/MoneyMngr` and `runtime/sched/ScsImpl`: every thread has an amount of money, and
pays one unit at each gate. A thread without money waits for the supervisor, which gives
every thread its initial amount again and starts a new epoch. The money word of a thread
is also a marker: `MAX_MONEY` is added to it while the thread is inside a
synchronisation.

The word is a `uint64_t`. The functions of `ScsImpl` run under one mutex, which a thread gives up
only while it waits for the next epoch; the parts in between are the steps here.
-/

namespace Schnauzer

/-- `MAX_NR_THREAD`. -/
def MAX_NR_THREAD : ℕ := 50

/-- `MAX_MONEY`. -/
def MAX_MONEY : ℕ := 10000000

/-- The settings that the scheduler reads. -/
structure SchedConfig where
  /-- `SYNC_ONLY`. -/
  syncOnly : Bool
  /-- `RANDOM_MONEY`. -/
  randomMoney : Bool
  /-- `RESET_INTERVAL`. -/
  resetInterval : ℕ
  /-- `RANDOM_MONEY_MIN`. -/
  minMoney : ℕ
  /-- `RANDOM_MONEY_MAX`. -/
  maxMoney : ℕ
  /-- It is an `int`. -/
  maxMoney_le : maxMoney ≤ 2147483647
  /-- `INIT_MONEY`. -/
  initMoney : List ℤ

namespace MoneyMngr

/-- `decCurrThreadMoney`. -/
def decCurrThreadMoney (money : ℕ) : ℕ := if money ≤ 1 then 0 else money - 1

/-- `currThreadEnterSync`. -/
def currThreadEnterSync (money : ℕ) : ℕ := (money + MAX_MONEY) % UInt64.size

/-- `currThreadLeaveSync`. -/
def currThreadLeaveSync (money : ℕ) : ℕ := (money + (UInt64.size - MAX_MONEY)) % UInt64.size

/-- `isMoneyInSync`. -/
def isMoneyInSync (money : ℕ) : Bool := money ≥ MAX_MONEY

/-- What `randMoney` may return; its `assert` is the first half. -/
def IsRandMoney (cfg : SchedConfig) (x : ℕ) : Prop :=
  (0 < cfg.minMoney ∧ 0 < cfg.maxMoney ∧ 10 ≤ cfg.maxMoney / cfg.minMoney) ∧
    cfg.minMoney ≤ x ∧ x ≤ cfg.maxMoney

instance (cfg : SchedConfig) (x : ℕ) : Decidable (IsRandMoney cfg x) := inferInstanceAs (Decidable (_ ∧ _))

/-- An entry of `INIT_MONEY` as a `money_t`, zero where there is none. -/
def initEntry (cfg : SchedConfig) (t : ℕ) : ℕ := ((cfg.initMoney.getD t 0) % UInt64.size).toNat

/-- What `init` may put into `__init_thread_money`. -/
def IsInitMoney (cfg : SchedConfig) (money : ℕ → ℕ) : Prop :=
  if cfg.randomMoney then ∀ t < MAX_NR_THREAD, IsRandMoney cfg (money t)
  else cfg.initMoney.length ≤ MAX_NR_THREAD ∧ ∀ t < MAX_NR_THREAD,
    -- `setInitThreadMoney` replaces the zeros
    if initEntry cfg t = 0 then IsRandMoney cfg (money t) else money t = initEntry cfg t

end MoneyMngr

open MoneyMngr

/-- The state of the scheduler. -/
structure Sched where
  /-- `__thread_money`. -/
  money : ℕ → ℕ
  /-- `__init_thread_money`. -/
  initMoney : ℕ → ℕ
  /-- `__epoch`. -/
  epoch : ℕ
  /-- The `epoch` of `supervise`. -/
  nrEpoch : ℕ

namespace Sched

/-- `resetThreadMoney`. -/
def resetThreadMoney (s : Sched) : Sched :=
  { s with money := fun t => if t < MAX_NR_THREAD then s.initMoney t else s.money t }

/-- The state after `MoneyMngr::init`. -/
def init (initMoney : ℕ → ℕ) : Sched := resetThreadMoney ⟨fun _ => 0, initMoney, 0, 1⟩

/-- The money of a thread is set. -/
def setMoney (s : Sched) (t m : ℕ) : Sched := { s with money := Function.update s.money t m }

/-- `startNewEpoch`. -/
def startNewEpoch (s : Sched) : Sched := { s.resetThreadMoney with epoch := s.epoch + 1 }

/-- `__sched_param.reset_interval_`. -/
def resetInterval (cfg : SchedConfig) : ℕ :=
  if cfg.resetInterval = 0 then 2147483647 else cfg.resetInterval

/-- `supervise`; `drawn` is what `randomInitThreadMoney` draws. -/
def supervise (cfg : SchedConfig) (drawn : ℕ → ℕ) (s : Sched) : Option Sched :=
  let s := { s.startNewEpoch with nrEpoch := s.nrEpoch + 1 }
  if cfg.randomMoney && s.nrEpoch % resetInterval cfg == 0 then
    if ∀ t < MAX_NR_THREAD, IsRandMoney cfg (drawn t) then some { s with initMoney := drawn } else none
  else some s

/-- What a thread does at a gate. -/
inductive Gate where
  /-- It goes on. -/
  | pass
  /-- It begins to wait, in `blockCurrThread`. -/
  | block
  /-- It still waits: the epoch is the one it remembers. -/
  | wait
  deriving DecidableEq

/-- The gate for thread `t`; `waiting` is the `last_epoch` of a thread in `blockCurrThread`. -/
def gate (s : Sched) (t : ℕ) (waiting : Option ℕ) : Gate :=
  match waiting with
  | none => if s.money t = 0 then .block else .pass
  | some lastEpoch => if lastEpoch = s.epoch then .wait else .pass

/-- The rest of `beforeSyncOperation`, past the gate. -/
def payAndEnter (s : Sched) (t : ℕ) : Sched :=
  s.setMoney t (currThreadEnterSync (decCurrThreadMoney (s.money t)))

/-- The rest of `beforeFuncCall` and `afterFuncCall`, past the gate. -/
def pay (s : Sched) (t : ℕ) : Sched := s.setMoney t (decCurrThreadMoney (s.money t))

/-- `afterSyncOperation`. -/
def afterSyncOperation (s : Sched) (t : ℕ) : Sched := s.setMoney t (currThreadLeaveSync (s.money t))

end Sched

end Schnauzer
