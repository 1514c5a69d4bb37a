import Schnauzer.Lib.Runs
import Schnauzer.Scs.ScScheduler
import Schnauzer.Sched.ScsImpl

/-!
# Threads running hooks

Any number of threads, each running the hooks of one operation after the other, and the
supervisor. A step is a critical section of `ScsImpl`, a logging function up to its first
store, one store into the log, or a reset by the supervisor; threads and supervisor may be
interleaved in any way. What an operation does between its two hooks is left open: it may
return at any time, and a `pthread_create` may return any thread id.

`Tid::getCurrTid` stops a thread whose id is not below `MAX_NR_THREAD`, so that only those
run hooks.
-/

namespace Schnauzer

open Runs

/-- The settings of a run. -/
structure Config where
  /-- Of the logger. -/
  log : LogConfig
  /-- Of the scheduler. -/
  sched : SchedConfig

/-- Where a thread is. -/
inductive Pc where
  /-- In the program's own code. -/
  | idle
  /-- In the hook before an operation; `todo` is left of it. -/
  | before (call : Call) (todo : List Stmt)
  /-- In the operation. -/
  | inside (call : Call)
  /-- In the hook after the operation. -/
  | after (call : Call) (todo : List Stmt)

/-- The next call of a hook, and where the thread is after it. -/
def Pc.head : Pc → Option (Call × Stmt × Pc)
  | .before call (stmt :: todo) => some (call, stmt, .before call todo)
  | .after call (stmt :: todo) => some (call, stmt, .after call todo)
  | _ => none

/-- A thread. -/
structure Thread where
  /-- Where it is. -/
  pc : Pc
  /-- The `last_epoch` of `blockCurrThread`, while it waits there. -/
  waiting : Option ℕ
  /-- Its part of the logger. -/
  log : LogLocal

/-- The state of all threads. -/
structure State where
  /-- The threads. -/
  thr : ℕ → Thread
  /-- The scheduler. -/
  sched : Sched
  /-- The log. -/
  log : LogState
  /-- How often each thread has executed `decCurrThreadMoney`; nothing reads it. -/
  passes : ℕ → ℕ

/-- A step of a thread or of the supervisor. -/
inductive Action where
  /-- A thread begins an operation. -/
  | call (t : ℕ) (call : Call)
  /-- A thread runs the next call of its hook. -/
  | exec (t : ℕ)
  /-- A thread makes its next store into the log. -/
  | store (t : ℕ)
  /-- A thread ends its hook. -/
  | ret (t : ℕ)
  /-- The operation of a thread returns; `r` is the thread created or joined. -/
  | real (t r : ℕ)
  /-- The supervisor resets the money. -/
  | supervise (drawn : ℕ → ℕ)

/-- The thread that takes the step. -/
def Action.thread : Action → Option ℕ
  | .call t _ | .exec t | .store t | .ret t | .real t _ => some t
  | .supervise _ => none

namespace Machine

/-- A state in front of the first operation. -/
def init (initMoney : ℕ → ℕ) : State where
  thr := fun _ => ⟨.idle, none, Logger.initLocal⟩
  sched := .init initMoney
  log := Logger.init
  passes := fun _ => 0

/-- A thread is replaced. -/
def setThr (s : State) (t : ℕ) (th : Thread) : State := { s with thr := Function.update s.thr t th }

/-- A gate: `through` is what the thread does to the scheduler past it, `next` where it goes. -/
def passGate (s : State) (t : ℕ) (next : Pc) (through : Sched → Sched) : Option State :=
  let th := s.thr t
  match s.sched.gate t th.waiting with
  | .wait => none
  | .block => some (setThr s t { th with waiting := some s.sched.epoch })
  | .pass =>
    some { setThr s t { th with pc := next, waiting := none } with
      sched := through s.sched
      passes := Function.update s.passes t (s.passes t + 1) }

/-- The call `stmt` of a hook for the operation `call`; `next` is the thread's place after it. -/
def execStmt (cfg : Config) (s : State) (t : ℕ) (call : Call) (next : Pc) : Stmt → Option State
  | .scs .beforeSyncOperation => passGate s t next fun sched => sched.payAndEnter t
  | .scs .afterSyncOperation =>
    some { setThr s t { s.thr t with pc := next } with sched := s.sched.afterSyncOperation t }
  | .scs .beforeFuncCall | .scs .afterFuncCall =>
    if cfg.sched.syncOnly then some (setThr s t { s.thr t with pc := next })
    else passGate s t next fun sched => sched.pay t
  | .log lc =>
    let (log, l) := Logger.exec cfg.log call.isOnStack call.inst t s.log (s.thr t).log lc
    some { setThr s t { s.thr t with pc := next, log := l } with log }

/-- A step. -/
def step (cfg : Config) (s : State) (a : Action) : Option State :=
  -- an `assert` that failed has stopped the program
  if s.log.aborted ≠ none then none
  else match a with
  | .call t call =>
    match (s.thr t).pc with
    | .idle =>
      if t < MAX_NR_THREAD then
        some (setThr s t { s.thr t with pc := .before call (call.before cfg.log) })
      else none
    | _ => none
  | .exec t =>
    if (s.thr t).log.pend ≠ [] then none
    else match (s.thr t).pc.head with
    | some (call, stmt, next) => execStmt cfg s t call next stmt
    | none => none
  | .store t =>
    (Logger.store s.log (s.thr t).log).map fun (log, l) =>
      { setThr s t { s.thr t with log := l } with log }
  | .ret t =>
    if (s.thr t).log.pend ≠ [] then none
    else match (s.thr t).pc with
    | .before call [] => some (setThr s t { s.thr t with pc := .inside call })
    | .after _ [] => some (setThr s t { s.thr t with pc := .idle })
    | _ => none
  | .real t r =>
    match (s.thr t).pc with
    | .inside call => some (setThr s t { s.thr t with pc := .after call (call.after r) })
    | _ => none
  | .supervise drawn => (s.sched.supervise cfg.sched drawn).map fun sched => { s with sched }

/-! ### What a step does -/

/-- The steps, one by one. -/
inductive Stepped (cfg : Config) (s : State) : Action → State → Prop where
  /-- A thread begins an operation. -/
  | call {t : ℕ} {call : Call} (hpc : (s.thr t).pc = .idle) (ht : t < MAX_NR_THREAD) :
      Stepped cfg s (.call t call) (setThr s t { s.thr t with pc := .before call (call.before cfg.log) })
  /-- A thread has no money and begins to wait. -/
  | block {t : ℕ} {call : Call} {c : ScsCall} {next : Pc}
      (hpc : (s.thr t).pc.head = some (call, .scs c, next)) (hc : c ≠ .afterSyncOperation)
      (hw : (s.thr t).waiting = none) (hm : s.sched.money t = 0) :
      Stepped cfg s (.exec t) (setThr s t { s.thr t with waiting := some s.sched.epoch })
  /-- `beforeSyncOperation` past the gate. -/
  | enter {t : ℕ} {call : Call} {next : Pc}
      (hpc : (s.thr t).pc.head = some (call, .scs .beforeSyncOperation, next))
      (hg : s.sched.gate t (s.thr t).waiting = .pass) :
      Stepped cfg s (.exec t)
        { setThr s t { s.thr t with pc := next, waiting := none } with
          sched := s.sched.payAndEnter t
          passes := Function.update s.passes t (s.passes t + 1) }
  /-- `beforeFuncCall` and `afterFuncCall` past the gate. -/
  | pay {t : ℕ} {call : Call} {c : ScsCall} {next : Pc}
      (hpc : (s.thr t).pc.head = some (call, .scs c, next))
      (hc : c = .beforeFuncCall ∨ c = .afterFuncCall)
      (hg : s.sched.gate t (s.thr t).waiting = .pass) :
      Stepped cfg s (.exec t)
        { setThr s t { s.thr t with pc := next, waiting := none } with
          sched := s.sched.pay t
          passes := Function.update s.passes t (s.passes t + 1) }
  /-- `beforeFuncCall` and `afterFuncCall` when only synchronisations pay. -/
  | skip {t : ℕ} {call : Call} {c : ScsCall} {next : Pc}
      (hpc : (s.thr t).pc.head = some (call, .scs c, next))
      (hc : c = .beforeFuncCall ∨ c = .afterFuncCall) :
      Stepped cfg s (.exec t) (setThr s t { s.thr t with pc := next })
  /-- `afterSyncOperation`. -/
  | leave {t : ℕ} {call : Call} {next : Pc}
      (hpc : (s.thr t).pc.head = some (call, .scs .afterSyncOperation, next)) :
      Stepped cfg s (.exec t)
        { setThr s t { s.thr t with pc := next } with sched := s.sched.afterSyncOperation t }
  /-- A logging function. -/
  | log {t : ℕ} {call : Call} {lc : LogCall} {next : Pc} {log : LogState} {l : LogLocal}
      (hpc : (s.thr t).pc.head = some (call, .log lc, next)) (hpend : (s.thr t).log.pend = [])
      (hlog : Logger.exec cfg.log call.isOnStack call.inst t s.log (s.thr t).log lc = (log, l)) :
      Stepped cfg s (.exec t) { setThr s t { s.thr t with pc := next, log := l } with log := log }
  /-- A store into the log. -/
  | store {t : ℕ} {log : LogState} {l : LogLocal}
      (hlog : Logger.store s.log (s.thr t).log = some (log, l)) :
      Stepped cfg s (.store t) { setThr s t { s.thr t with log := l } with log := log }
  /-- A thread goes from the first hook to the operation. -/
  | inside {t : ℕ} {call : Call} (hpc : (s.thr t).pc = .before call [])
      (hpend : (s.thr t).log.pend = []) :
      Stepped cfg s (.ret t) (setThr s t { s.thr t with pc := .inside call })
  /-- A thread ends an operation. -/
  | idle {t : ℕ} {call : Call} (hpc : (s.thr t).pc = .after call [])
      (hpend : (s.thr t).log.pend = []) : Stepped cfg s (.ret t) (setThr s t { s.thr t with pc := .idle })
  /-- An operation returns. -/
  | real {t r : ℕ} {call : Call} (hpc : (s.thr t).pc = .inside call) :
      Stepped cfg s (.real t r) (setThr s t { s.thr t with pc := .after call (call.after r) })
  /-- A reset. -/
  | supervise {drawn : ℕ → ℕ} {sched : Sched} (h : s.sched.supervise cfg.sched drawn = some sched) :
      Stepped cfg s (.supervise drawn) { s with sched := sched }

variable {cfg : Config} {s s' : State} {a : Action}

theorem gate_eq_block {sched : Sched} {t : ℕ} {waiting : Option ℕ}
    (h : sched.gate t waiting = .block) : waiting = none ∧ sched.money t = 0 := by
  unfold Sched.gate at h
  cases waiting with
  | none =>
    dsimp only at h
    split_ifs at h with hm
    exact ⟨rfl, hm⟩
  | some e =>
    dsimp only at h
    split_ifs at h

theorem passGate_cases {t : ℕ} {next : Pc} {through : Sched → Sched}
    (h : passGate s t next through = some s') :
    (s.thr t).waiting = none ∧ s.sched.money t = 0 ∧
        s' = setThr s t { s.thr t with waiting := some s.sched.epoch } ∨
      s.sched.gate t (s.thr t).waiting = .pass ∧
        s' = { setThr s t { s.thr t with pc := next, waiting := none } with
          sched := through s.sched
          passes := Function.update s.passes t (s.passes t + 1) } := by
  unfold passGate at h
  cases hg : s.sched.gate t (s.thr t).waiting with
  | wait => simp [hg] at h
  | pass => exact Or.inr ⟨rfl, by simpa [hg] using h.symm⟩
  | block =>
    obtain ⟨hw, hm⟩ := gate_eq_block hg
    exact Or.inl ⟨hw, hm, by simpa [hg] using h.symm⟩

theorem execStmt_cases {t : ℕ} {call : Call} {stmt : Stmt} {next : Pc}
    (hpc : (s.thr t).pc.head = some (call, stmt, next)) (hpend : (s.thr t).log.pend = [])
    (h : execStmt cfg s t call next stmt = some s') : Stepped cfg s (.exec t) s' := by
  cases stmt with
  | scs c =>
    cases c with
    | beforeSyncOperation =>
      unfold execStmt at h
      rcases passGate_cases h with ⟨hw, hm, rfl⟩ | ⟨hg, rfl⟩
      · exact .block hpc (by decide) hw hm
      · exact .enter hpc hg
    | afterSyncOperation =>
      simp only [execStmt, Option.some.injEq] at h
      subst h
      exact .leave hpc
    | beforeFuncCall =>
      unfold execStmt at h
      split_ifs at h
      · obtain rfl := Option.some.inj h
        exact .skip hpc (Or.inl rfl)
      · rcases passGate_cases h with ⟨hw, hm, rfl⟩ | ⟨hg, rfl⟩
        · exact .block hpc (by decide) hw hm
        · exact .pay hpc (Or.inl rfl) hg
    | afterFuncCall =>
      unfold execStmt at h
      split_ifs at h
      · obtain rfl := Option.some.inj h
        exact .skip hpc (Or.inr rfl)
      · rcases passGate_cases h with ⟨hw, hm, rfl⟩ | ⟨hg, rfl⟩
        · exact .block hpc (by decide) hw hm
        · exact .pay hpc (Or.inr rfl) hg
  | log lc =>
    obtain rfl := Option.some.inj h
    exact .log hpc hpend rfl

/-- **What a step does.** -/
theorem step_cases (h : step cfg s a = some s') : s.log.aborted = none ∧ Stepped cfg s a s' := by
  unfold step at h
  split_ifs at h with hab
  refine ⟨not_not.mp hab, ?_⟩
  cases a with
  | call t call =>
    dsimp only at h
    split at h
    next hpc =>
      split_ifs at h with ht
      obtain rfl := Option.some.inj h
      exact .call hpc ht
    next => cases h
  | exec t =>
    dsimp only at h
    split_ifs at h with hpend
    split at h
    next call stmt next hpc => exact execStmt_cases hpc (not_not.mp hpend) h
    next => cases h
  | store t =>
    obtain ⟨⟨log, l⟩, hlog, rfl⟩ := Option.map_eq_some_iff.mp h
    exact .store hlog
  | ret t =>
    dsimp only at h
    split_ifs at h with hpend
    split at h
    next call hpc =>
      obtain rfl := Option.some.inj h
      exact .inside hpc (not_not.mp hpend)
    next call hpc =>
      obtain rfl := Option.some.inj h
      exact .idle hpc (not_not.mp hpend)
    next => cases h
  | real t r =>
    dsimp only at h
    split at h
    next call hpc =>
      obtain rfl := Option.some.inj h
      exact .real hpc
    next => cases h
  | supervise drawn =>
    obtain ⟨sched, hsched, rfl⟩ := Option.map_eq_some_iff.mp h
    exact .supervise hsched

/-- A state that some interleaving leads to. -/
def Reachable (cfg : Config) (s : State) : Prop :=
  ∃ initMoney, MoneyMngr.IsInitMoney cfg.sched initMoney ∧
    Reach (step cfg) (fun _ _ => True) (init initMoney) s

end Machine

/-! ### A configuration -/

/-- Two units for each of fifty threads. -/
def twoUnits : Config where
  log := ⟨true, false, false⟩
  sched :=
    { syncOnly := false, randomMoney := false, resetInterval := 0, minMoney := 0, maxMoney := 0
      maxMoney_le := Nat.zero_le _, initMoney := List.replicate 50 2 }

theorem isInitMoney_twoUnits : MoneyMngr.IsInitMoney twoUnits.sched fun _ => 2 := by
  unfold MoneyMngr.IsInitMoney
  decide

end Schnauzer
