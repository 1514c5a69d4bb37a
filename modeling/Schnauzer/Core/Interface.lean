import Schnauzer.Core.RealOrder
import Schnauzer.Lib.Runs
import Schnauzer.Scs.HookLog
import Schnauzer.Sched.ScsImpl

/-!
# The wrappers

`runtime/core/Interface`: any number of threads that run their operations through the wrappers,
under `ScScheduler`, from the start of `main` to the flush of the log at exit. A wrapper tests
`need_instrument`, runs the hook before the operation, does the operation, tests again, and runs
the hook after it. A step is a test, a logging function up to its first store, one store into
the log, one operation of the `pthread` library, or one round of the loop of `flush`; the threads may be
interleaved in any way. The calls of a hook into `ScsImpl` only delay a thread, so that here they
change nothing. A thread is the number that `Tid::getNewTid` gives it when it starts; its creator
waits for that.

The operations are those of `pthread`, for programs that keep to the rules: a thread unlocks or waits
with a mutex that it owns, and an address names one object, a mutex or a condition variable.

The history, with `place` and `rep` which relate it to the log, is recorded for the statements; no
step depends on it. `started` and `finished` are the two flags of `Control`, each with the length
of the history when it was set.
-/

namespace Schnauzer

/-- The condition variable and the mutex of a wait. -/
def Op.waitsWith : Op → Option (Addr × Addr)
  | .condWait c m | .condTimedwait c m => some (c, m)
  | _ => none

/-- The condition variable of a signal, to one thread or to all. -/
def Op.signals : Op → Option Addr
  | .condSignal c | .condBroadcast c => some c
  | _ => none

/-- The mutex that an operation may acquire. -/
def Op.acquires : Op → Option Addr
  | .mutexLock m | .mutexTrylock m => some m
  | _ => none

/-- The operations that may synchronise nothing. -/
def Op.mayFail : Op → Bool
  | .create | .join _ | .mutexLock _ | .mutexUnlock _ | .condWait _ _ | .condTimedwait _ _
  | .condSignal _ | .condBroadcast _ => false
  | _ => true

/-- The operations of reader-writer locks. -/
def Op.isRwlock : Op → Bool
  | .rwlockRdlock _ | .rwlockWrlock _ | .rwlockTryrdlock _ | .rwlockTrywrlock _ | .rwlockUnlock _ => true
  | _ => false

namespace Interface

open Runs

/-- The settings of a run. -/
structure Config where
  /-- Of the logger. -/
  log : LogConfig
  /-- The condition variables among the addresses. -/
  isCond : Addr → Bool

/-- Where a thread is. -/
inductive Pc where
  /-- It has not been created. -/
  | absent
  /-- In the program's own code. -/
  | idle
  /-- In the hook before an operation; `slot` is the first slot of the log that the hook reserved. -/
  | before (call : Call) (todo : List Stmt) (slot : Option ℕ)
  /-- In front of the operation. -/
  | atCall (call : Call) (slot : Option ℕ)
  /-- In `pthread_cond_wait`, without the mutex, which it had locked `depth` times; `cause` is
  the signal that has woken it. -/
  | waiting (call : Call) (depth : ℕ) (cause : Option ℕ)
  /-- Behind the operation; `r` is the thread created or joined, `lab` the label of an operation that
  the next hook logs. -/
  | done (call : Call) (r : ℕ) (lab : Option ℕ)
  /-- In the hook after the operation. -/
  | after (call : Call) (r : ℕ) (todo : List Stmt) (lab : Option ℕ)
  /-- In the loop of `flush`. -/
  | flushing (i : ℕ)
  /-- At its end. -/
  | ended

/-- A thread. -/
structure Thread where
  /-- Where it is. -/
  pc : Pc
  /-- Its part of the logger. -/
  log : LogLocal

/-- The state of the process. -/
structure State where
  /-- The threads. -/
  thr : ℕ → Thread
  /-- The log. -/
  log : LogState
  /-- `__is_started`. -/
  started : Option ℕ
  /-- `__is_finished`. -/
  finished : Option ℕ
  /-- `has_clean_up`. -/
  hasCleanUp : Bool
  /-- `__tid_counter`. -/
  nrThread : ℕ
  /-- Who owns a mutex. -/
  owner : Addr → Option ℕ
  /-- How often. -/
  depth : Addr → ℕ
  /-- Who has a reader-writer lock for writing. -/
  writer : Addr → Option ℕ
  /-- And for reading. -/
  readers : Addr → List ℕ
  /-- The trace file. -/
  file : List Event
  /-- The history. -/
  hist : List Label
  /-- The place in the history where a slot of the log was reserved. -/
  place : ℕ → ℕ
  /-- The first slot that was reserved for the event of a label. -/
  rep : ℕ → Option ℕ

/-- What the `pthread` library decides. -/
inductive Outcome where
  /-- Success. -/
  | ok
  /-- The lock is taken. -/
  | busy
  /-- The threads woken, at least. -/
  | wakes (threads : List ℕ)

/-- A step. -/
inductive Action where
  /-- A thread enters a wrapper. -/
  | call (t : ℕ) (call : Call)
  /-- A thread runs the next call of its hook. -/
  | exec (t : ℕ)
  /-- A thread makes its next store into the log. -/
  | store (t : ℕ)
  /-- A thread ends its hook. -/
  | ret (t : ℕ)
  /-- A thread does its operation. -/
  | real (t : ℕ) (x : Outcome)
  /-- A wait returns. -/
  | wakeUp (t : ℕ)
  /-- A thread comes to the second half of its wrapper. -/
  | second (t : ℕ)
  /-- A thread calls `exit`. -/
  | exit (t : ℕ)
  /-- The next round of `flush`. -/
  | flush (t : ℕ)
  /-- A thread ends. -/
  | finish (t : ℕ)

/-- The thread that takes a step. -/
def Action.thread : Action → ℕ
  | .call t _ | .exec t | .store t | .ret t | .real t _ | .wakeUp t | .second t | .exit t | .flush t
  | .finish t => t

/-- The next call of a hook, and where the thread is after it. -/
def Pc.head : Pc → Option (Call × Stmt × Pc)
  | .before call (stmt :: todo) slot => some (call, stmt, .before call todo slot)
  | .after call r (stmt :: todo) lab => some (call, stmt, .after call r todo lab)
  | _ => none

/-- The label whose event a hook logs. -/
def Pc.lab : Pc → Option ℕ
  | .after _ _ _ lab => lab
  | _ => none

/-- A hook has reserved slots, the first of them `n`. -/
def Pc.took (n : ℕ) : Pc → Pc
  | .before call todo slot => .before call todo (slot <|> some n)
  | pc => pc

/-- The thread at a wait on `c` that has not been woken. -/
def Pc.waitsFor (c : Addr) : Pc → Bool
  | .waiting call _ none =>
    match call.op with
    | .condWait c' _ | .condTimedwait c' _ => c' = c
    | _ => false
  | _ => false

/-- The thread is at its end. -/
def Pc.isEnded : Pc → Bool
  | .ended => true
  | _ => false

/-- A thread is woken. -/
def Pc.wake (i : ℕ) : Pc → Pc
  | .waiting call depth _ => .waiting call depth (some i)
  | pc => pc

/-- In front of `main`. -/
def init : State where
  thr := fun t => ⟨if t = 0 then .idle else .absent, Logger.initLocal⟩
  log := Logger.init
  started := none
  finished := none
  hasCleanUp := false
  nrThread := 1
  owner := fun _ => none
  depth := fun _ => 0
  writer := fun _ => none
  readers := fun _ => []
  file := []
  hist := []
  place := fun _ => 0
  rep := fun _ => none

namespace State

variable (s : State)

/-- A thread moves. -/
def setPc (t : ℕ) (pc : Pc) : State := { s with thr := Function.update s.thr t { s.thr t with pc } }

/-- The history grows; `slot` is the first slot for the event of the label. -/
def record (t : ℕ) (act : Act) (slot : Option ℕ) : State :=
  { s with hist := s.hist ++ [⟨t, act⟩], rep := Function.update s.rep s.hist.length slot }

/-- `need_instrument`. -/
def needInstrument : Bool := s.started.isSome && s.finished.isNone

/-- `Control::setStarted`. -/
def setStarted : State := { s with started := some (s.started.getD s.hist.length) }

/-- `Control::setFinished`. -/
def setFinished : State := { s with finished := some (s.finished.getD s.hist.length) }

/-- A mutex is acquired, perhaps not for the first time. -/
def acquire (t : ℕ) (m : Addr) : State :=
  { s with owner := Function.update s.owner m (some t), depth := Function.update s.depth m (s.depth m + 1) }

/-- A mutex is released once. -/
def release (t : ℕ) (m : Addr) : State :=
  { s with
    owner := Function.update s.owner m (if s.depth m ≤ 1 then none else some t)
    depth := Function.update s.depth m (s.depth m - 1) }

/-- A mutex is free. -/
def free (m : Addr) : State :=
  { s with owner := Function.update s.owner m none, depth := Function.update s.depth m 0 }

/-- A mutex is owned by a thread that has it `depth` times. -/
def own (t : ℕ) (m : Addr) (depth : ℕ) : State :=
  { s with owner := Function.update s.owner m (some t), depth := Function.update s.depth m depth }

/-- The threads of `p` that wait for `c` are woken by the signal at place `i`. -/
def wake (c : Addr) (p : ℕ → Bool) (i : ℕ) : State :=
  { s with
    thr := fun u =>
      if (p u && (s.thr u).pc.waitsFor c) then { s.thr u with pc := (s.thr u).pc.wake i } else s.thr u }

/-- A new thread. -/
def spawn : State := { s.setPc s.nrThread .idle with nrThread := s.nrThread + 1 }

end State

/-! ### The steps -/

/-- What a wrapper may be called for. -/
def Allowed (cfg : Config) (s : State) (t : ℕ) : Op → Bool
  | .mutexLock m | .mutexTrylock m | .mutexDestroy m => !cfg.isCond m
  | .mutexUnlock m => !cfg.isCond m && s.owner m = some t
  | .condWait c m | .condTimedwait c m => cfg.isCond c && !cfg.isCond m && s.owner m = some t
  | .condSignal c | .condBroadcast c => cfg.isCond c
  | .rwlockUnlock l => s.writer l = some t || (s.readers l).contains t
  | _ => true

/-- The first half of a wrapper; `pthread_create_wrapper` calls `setStarted`. -/
def enter (cfg : Config) (s : State) (t : ℕ) (call : Call) : State :=
  let s := if call.op = .create then s.setStarted else s
  s.setPc t (if s.needInstrument then .before call (call.before cfg.log) none else .atCall call none)

/-- Slots from `n` on are reserved for `lc`; they are for the event of the label `lab` if the thread is in
a hook after an operation. -/
def State.reserve (s : State) (t n : ℕ) (lc : LogCall) (lab : Option ℕ) : State :=
  { s with
    hist := s.hist ++ [⟨t, .log lc n⟩]
    place := fun k => if n ≤ k then s.hist.length else s.place k
    rep := match lab with
      | some i => Function.update s.rep i (some n)
      | none => s.rep }

/-- The log and a thread's part of it change. -/
def State.setLog (s : State) (t : ℕ) (log : LogState) (l : LogLocal) : State :=
  { s with log := log, thr := Function.update s.thr t { s.thr t with log := l } }

/-- The call `stmt` of a hook for the operation `call`; `next` is the thread's place after it. -/
def execStmt (cfg : Config) (s : State) (t : ℕ) (call : Call) (next : Pc) : Stmt → State
  | .scs _ => s.setPc t next
  | .log lc =>
    let (log, l) := Logger.exec cfg.log call.isOnStack call.inst t s.log (s.thr t).log lc
    if s.log.logSz < log.logSz then
      ((s.setLog t log l).reserve t s.log.logSz lc next.lab).setPc t (next.took s.log.logSz)
    else (s.setLog t log l).setPc t next

/-- The threads that `pthread_cond_signal` may wake: one at least, if there is one. -/
def wakesOne (s : State) (c : Addr) (threads : List ℕ) : Bool :=
  (List.range s.nrThread).all (fun u => !(s.thr u).pc.waitsFor c) ||
    (List.range s.nrThread).any fun u => (s.thr u).pc.waitsFor c && threads.contains u

/-- The label that an operation leaves is the one that comes next. -/
def nextLab (s : State) : Option ℕ := some s.hist.length

/-- An operation; `slot` is the first slot that the hook before it reserved. -/
def real (s : State) (t : ℕ) (call : Call) (slot : Option ℕ) (x : Outcome) : Option State :=
  match call.op with
  | .create =>
    -- the new thread gets its number; from `MAX_NR_THREAD` on an `assert` of its fails
    if s.nrThread < MAX_NR_THREAD then
      some ((s.spawn.record t (.spawn s.nrThread) slot).setPc t (.done call s.nrThread none))
    else none
  | .join u =>
    if (s.thr u).pc.isEnded then
      some ((s.record t (.joined u) none).setPc t (.done call u (nextLab s)))
    else none
  | .mutexLock m =>
    if s.owner m = none ∨ s.owner m = some t then
      some (((s.acquire t m).record t (.acquire m) none).setPc t (.done call 0 (nextLab s)))
    else none
  | .mutexTrylock m =>
    match x with
    | .busy => if s.owner m ≠ none then some (s.setPc t (.done call 0 none)) else none
    | _ =>
      if s.owner m = none ∨ s.owner m = some t then
        some (((s.acquire t m).record t (.acquire m) none).setPc t (.done call 0 (nextLab s)))
      else none
  | .mutexUnlock m =>
    if s.owner m = some t then
      some (((s.release t m).record t (.release m) slot).setPc t (.done call 0 none))
    else none
  | .condWait _ m | .condTimedwait _ m =>
    if s.owner m = some t then
      some (((s.free m).record t (.release m) slot).setPc t (.waiting call (s.depth m) none))
    else none
  | .condSignal c =>
    match x with
    | .wakes threads =>
      if wakesOne s c threads then
        some (((s.wake c (fun u => threads.contains u) s.hist.length).record t
          (.signal c s.hist.length) slot).setPc t (.done call 0 none))
      else none
    | _ => none
  | .condBroadcast c =>
    some (((s.wake c (fun _ => true) s.hist.length).record t (.signal c s.hist.length) slot).setPc t
      (.done call 0 none))
  | .rwlockRdlock l | .rwlockTryrdlock l =>
    match x with
    | .busy => some (s.setPc t (.done call 0 none))
    | _ =>
      if s.writer l = none then
        some (({ s with readers := Function.update s.readers l (t :: s.readers l) }.record t
          (.rdlock l) none).setPc t (.done call 0 none))
      else none
  | .rwlockWrlock l | .rwlockTrywrlock l =>
    match x with
    | .busy => some (s.setPc t (.done call 0 none))
    | _ =>
      if s.writer l = none ∧ s.readers l = [] then
        some (({ s with writer := Function.update s.writer l (some t) }.record t
          (.wrlock l) none).setPc t (.done call 0 none))
      else none
  | .rwlockUnlock l =>
    if s.writer l = some t then
      some (({ s with writer := Function.update s.writer l none }.record t
        (.wrunlock l) none).setPc t (.done call 0 none))
    else
      some (({ s with readers := Function.update s.readers l ((s.readers l).erase t) }.record t
        (.rdunlock l) none).setPc t (.done call 0 none))
  -- a mutex that is destroyed, accesses and everything else synchronise nothing
  | _ => some (s.setPc t (.done call 0 none))

/-- `_before_exit` up to the loop of `flush`, in the thread that calls it first. -/
def beforeExit (cfg : Config) (s : State) (t : ℕ) : State :=
  { s.setFinished with hasCleanUp := true }.setPc t (if cfg.log.enable then .flushing 0 else .ended)

/-- One round of the loop of `flush`, or its end. -/
def flushRound (s : State) (t i : ℕ) : State :=
  if i < s.log.logSz then
    match s.log.events i with
    | some e =>
      if e.timestamp ≠ i then { s with log := Logger.abort .flush s.log }
      else if e.Storable then { s.setPc t (.flushing (i + 1)) with file := s.file ++ [e] }
      else { s with log := Logger.abort .storeEvent s.log }
    -- memory that was never written
    | none => { s with log := Logger.abort .flush s.log }
  else s.setPc t .ended

/-- A step. -/
def step (cfg : Config) (s : State) (a : Action) : Option State :=
  -- an `assert` that failed has stopped the program
  if s.log.aborted ≠ none then none
  else match a with
  | .call t call =>
    match (s.thr t).pc with
    | .idle => if Allowed cfg s t call.op then some (enter cfg s t call) else none
    | _ => none
  | .exec t =>
    if (s.thr t).log.pend ≠ [] then none
    else match (s.thr t).pc.head with
    | some (call, stmt, next) => some (execStmt cfg s t call next stmt)
    | none => none
  | .store t =>
    (Logger.store s.log (s.thr t).log).map fun (log, l) => s.setLog t log l
  | .ret t =>
    if (s.thr t).log.pend ≠ [] then none
    else match (s.thr t).pc with
    | .before call [] slot => some (s.setPc t (.atCall call slot))
    | .after _ _ [] _ => some (s.setPc t .idle)
    | _ => none
  | .real t x =>
    match (s.thr t).pc with
    | .atCall call slot => real s t call slot x
    | _ => none
  | .wakeUp t =>
    match (s.thr t).pc with
    | .waiting call depth cause =>
      match call.op with
      | .condWait c m | .condTimedwait c m =>
        if s.owner m = none then
          some (((s.own t m depth).record t (.awake c m cause) none).setPc t (.done call 0 (nextLab s)))
        else none
      | _ => none
    | _ => none
  | .second t =>
    match (s.thr t).pc with
    | .done call r lab =>
      some (s.setPc t (if s.needInstrument then .after call r (call.after r) lab else .idle))
    | _ => none
  | .exit t =>
    match (s.thr t).pc with
    | .idle =>
      if s.hasCleanUp then some (s.setPc t .ended)
      else some (beforeExit cfg s t)
    | _ => none
  | .flush t =>
    match (s.thr t).pc with
    | .flushing i => some (flushRound s t i)
    | _ => none
  | .finish t =>
    match (s.thr t).pc with
    | .idle => some (s.setPc t .ended)
    | _ => none

/-! ### What a step does -/

/-- The labels of reader-writer locks. -/
def Act.isRwlock : Act → Bool
  | .rdlock _ | .wrlock _ | .rdunlock _ | .wrunlock _ => true
  | _ => false

/-- The steps, one by one. -/
inductive Stepped (cfg : Config) (s : State) : Action → State → Prop where
  /-- A thread enters a wrapper. -/
  | call {t : ℕ} {call : Call} (hpc : (s.thr t).pc = .idle) (hall : Allowed cfg s t call.op) :
      Stepped cfg s (.call t call) (enter cfg s t call)
  /-- A call into the scheduler. -/
  | skip {t : ℕ} {call : Call} {c : ScsCall} {next : Pc} (hpend : (s.thr t).log.pend = [])
      (hpc : (s.thr t).pc.head = some (call, .scs c, next)) : Stepped cfg s (.exec t) (s.setPc t next)
  /-- A logging function that reserves nothing. -/
  | log {t : ℕ} {call : Call} {lc : LogCall} {next : Pc} {log : LogState} {l : LogLocal}
      (hpend : (s.thr t).log.pend = []) (hpc : (s.thr t).pc.head = some (call, .log lc, next))
      (hlog : Logger.exec cfg.log call.isOnStack call.inst t s.log (s.thr t).log lc = (log, l))
      (hsz : log.logSz ≤ s.log.logSz) : Stepped cfg s (.exec t) ((s.setLog t log l).setPc t next)
  /-- A logging function that reserves slots. -/
  | reserve {t : ℕ} {call : Call} {lc : LogCall} {next : Pc} {log : LogState} {l : LogLocal}
      (hpend : (s.thr t).log.pend = []) (hpc : (s.thr t).pc.head = some (call, .log lc, next))
      (hlog : Logger.exec cfg.log call.isOnStack call.inst t s.log (s.thr t).log lc = (log, l))
      (hsz : s.log.logSz < log.logSz) :
      Stepped cfg s (.exec t)
        (((s.setLog t log l).reserve t s.log.logSz lc next.lab).setPc t (next.took s.log.logSz))
  /-- A store into the log. -/
  | store {t : ℕ} {log : LogState} {l : LogLocal}
      (hlog : Logger.store s.log (s.thr t).log = some (log, l)) : Stepped cfg s (.store t) (s.setLog t log l)
  /-- A thread ends the hook before an operation. -/
  | atCall {t : ℕ} {call : Call} {slot : Option ℕ} (hpend : (s.thr t).log.pend = [])
      (hpc : (s.thr t).pc = .before call [] slot) : Stepped cfg s (.ret t) (s.setPc t (.atCall call slot))
  /-- A thread ends the hook after an operation. -/
  | idle {t : ℕ} {call : Call} {r : ℕ} {lab : Option ℕ} (hpend : (s.thr t).log.pend = [])
      (hpc : (s.thr t).pc = .after call r [] lab) : Stepped cfg s (.ret t) (s.setPc t .idle)
  /-- An operation that synchronises nothing. -/
  | plain {t : ℕ} {call : Call} {slot : Option ℕ} {x : Outcome} (hpc : (s.thr t).pc = .atCall call slot)
      (hop : call.op.mayFail) : Stepped cfg s (.real t x) (s.setPc t (.done call 0 none))
  /-- A thread is created. -/
  | spawn {t : ℕ} {call : Call} {slot : Option ℕ} {x : Outcome} (hpc : (s.thr t).pc = .atCall call slot)
      (hop : call.op = .create) (hlt : s.nrThread < MAX_NR_THREAD) :
      Stepped cfg s (.real t x)
        ((s.spawn.record t (.spawn s.nrThread) slot).setPc t (.done call s.nrThread none))
  /-- A thread is joined. -/
  | joined {t u : ℕ} {call : Call} {slot : Option ℕ} {x : Outcome} (hpc : (s.thr t).pc = .atCall call slot)
      (hop : call.op = .join u) (hend : (s.thr u).pc = .ended) :
      Stepped cfg s (.real t x) ((s.record t (.joined u) none).setPc t (.done call u (nextLab s)))
  /-- A mutex is acquired. -/
  | acquire {t : ℕ} {m : Addr} {call : Call} {slot : Option ℕ} {x : Outcome}
      (hpc : (s.thr t).pc = .atCall call slot) (hop : call.op.acquires = some m)
      (hown : s.owner m = none ∨ s.owner m = some t) :
      Stepped cfg s (.real t x)
        (((s.acquire t m).record t (.acquire m) none).setPc t (.done call 0 (nextLab s)))
  /-- A mutex is released. -/
  | release {t : ℕ} {m : Addr} {call : Call} {slot : Option ℕ} {x : Outcome}
      (hpc : (s.thr t).pc = .atCall call slot) (hop : call.op = .mutexUnlock m)
      (hown : s.owner m = some t) :
      Stepped cfg s (.real t x)
        (((s.release t m).record t (.release m) slot).setPc t (.done call 0 none))
  /-- A thread begins to wait. -/
  | wait {t : ℕ} {c m : Addr} {call : Call} {slot : Option ℕ} {x : Outcome}
      (hpc : (s.thr t).pc = .atCall call slot) (hop : call.op.waitsWith = some (c, m))
      (hown : s.owner m = some t) :
      Stepped cfg s (.real t x)
        (((s.free m).record t (.release m) slot).setPc t (.waiting call (s.depth m) none))
  /-- A condition variable is signalled. -/
  | signal {t : ℕ} {c : Addr} {call : Call} {slot : Option ℕ} {x : Outcome} (p : ℕ → Bool)
      (hpc : (s.thr t).pc = .atCall call slot) (hop : call.op.signals = some c) :
      Stepped cfg s (.real t x)
        (((s.wake c p s.hist.length).record t (.signal c s.hist.length) slot).setPc t (.done call 0 none))
  /-- An operation on a reader-writer lock. -/
  | rwlock {t : ℕ} {call : Call} {slot : Option ℕ} {x : Outcome} (act : Act) (writer : Addr → Option ℕ)
      (readers : Addr → List ℕ) (hpc : (s.thr t).pc = .atCall call slot) (hop : call.op.isRwlock)
      (hact : act.isRwlock) :
      Stepped cfg s (.real t x)
        (({ s with writer := writer, readers := readers }.record t act none).setPc t (.done call 0 none))
  /-- A wait returns. -/
  | wakeUp {t : ℕ} {c m : Addr} {call : Call} {depth : ℕ} {cause : Option ℕ}
      (hpc : (s.thr t).pc = .waiting call depth cause) (hop : call.op.waitsWith = some (c, m))
      (hown : s.owner m = none) :
      Stepped cfg s (.wakeUp t)
        (((s.own t m depth).record t (.awake c m cause) none).setPc t (.done call 0 (nextLab s)))
  /-- A thread comes to the second half of its wrapper. -/
  | second {t : ℕ} {call : Call} {r : ℕ} {lab : Option ℕ} (hpc : (s.thr t).pc = .done call r lab) :
      Stepped cfg s (.second t)
        (s.setPc t (if s.needInstrument then .after call r (call.after r) lab else .idle))
  /-- The first thread that calls `exit`. -/
  | exit {t : ℕ} (hpc : (s.thr t).pc = .idle) (hc : s.hasCleanUp = false) :
      Stepped cfg s (.exit t) (beforeExit cfg s t)
  /-- A round of `flush`. -/
  | flush {t i : ℕ} (hpc : (s.thr t).pc = .flushing i) : Stepped cfg s (.flush t) (flushRound s t i)
  /-- Another thread that calls `exit`. -/
  | leave {t : ℕ} (hpc : (s.thr t).pc = .idle) (hc : s.hasCleanUp) :
      Stepped cfg s (.exit t) (s.setPc t .ended)
  /-- A thread ends. -/
  | finish {t : ℕ} (hpc : (s.thr t).pc = .idle) : Stepped cfg s (.finish t) (s.setPc t .ended)

variable {cfg : Config} {s s' : State} {a : Action}

theorem execStmt_cases {t : ℕ} {call : Call} {stmt : Stmt} {next : Pc} (hpend : (s.thr t).log.pend = [])
    (hpc : (s.thr t).pc.head = some (call, stmt, next)) :
    Stepped cfg s (.exec t) (execStmt cfg s t call next stmt) := by
  cases stmt with
  | scs c => exact .skip hpend hpc
  | log lc =>
    unfold execStmt
    dsimp only
    split_ifs with hsz
    · exact .reserve hpend hpc rfl hsz
    · exact .log hpend hpc rfl (not_lt.mp hsz)

theorem eq_ended {pc : Pc} (h : pc.isEnded) : pc = .ended := by
  cases pc <;> first | rfl | cases h

theorem real_cases {t : ℕ} {call : Call} {slot : Option ℕ} {x : Outcome}
    (hpc : (s.thr t).pc = .atCall call slot) (h : real s t call slot x = some s') :
    Stepped cfg s (.real t x) s' := by
  obtain ⟨op, inst, st, sl⟩ := call
  cases op with
  | create =>
    simp only [real] at h
    split_ifs at h with hlt
    obtain rfl := Option.some.inj h
    exact .spawn hpc rfl hlt
  | join u =>
    simp only [real] at h
    split_ifs at h with hend
    obtain rfl := Option.some.inj h
    exact .joined hpc rfl (eq_ended hend)
  | mutexLock m =>
    simp only [real] at h
    split_ifs at h with hown
    obtain rfl := Option.some.inj h
    exact .acquire hpc rfl hown
  | mutexTrylock m =>
    cases x with
    | busy =>
      simp only [real] at h
      split_ifs at h with hown
      obtain rfl := Option.some.inj h
      exact .plain hpc rfl
    | ok =>
      simp only [real] at h
      split_ifs at h with hown
      obtain rfl := Option.some.inj h
      exact .acquire hpc rfl hown
    | wakes ws =>
      simp only [real] at h
      split_ifs at h with hown
      obtain rfl := Option.some.inj h
      exact .acquire hpc rfl hown
  | mutexUnlock m =>
    simp only [real] at h
    split_ifs at h with hown
    obtain rfl := Option.some.inj h
    exact .release hpc rfl hown
  | condWait c m =>
    simp only [real] at h
    split_ifs at h with hown
    obtain rfl := Option.some.inj h
    exact .wait hpc rfl hown
  | condTimedwait c m =>
    simp only [real] at h
    split_ifs at h with hown
    obtain rfl := Option.some.inj h
    exact .wait hpc rfl hown
  | condSignal c =>
    cases x with
    | ok => cases h
    | busy => cases h
    | wakes ws =>
      simp only [real] at h
      split_ifs at h with hw
      obtain rfl := Option.some.inj h
      exact .signal _ hpc rfl
  | condBroadcast c =>
    obtain rfl := Option.some.inj h
    exact .signal _ hpc rfl
  | rwlockRdlock l | rwlockTryrdlock l =>
    simp only [real] at h
    split at h
    · obtain rfl := Option.some.inj h
      exact .plain hpc rfl
    · split_ifs at h
      obtain rfl := Option.some.inj h
      exact .rwlock _ s.writer _ hpc rfl rfl
  | rwlockWrlock l | rwlockTrywrlock l =>
    simp only [real] at h
    split at h
    · obtain rfl := Option.some.inj h
      exact .plain hpc rfl
    · split_ifs at h
      obtain rfl := Option.some.inj h
      exact .rwlock _ _ s.readers hpc rfl rfl
  | rwlockUnlock l =>
    simp only [real] at h
    split_ifs at h
    · obtain rfl := Option.some.inj h
      exact .rwlock _ _ s.readers hpc rfl rfl
    · obtain rfl := Option.some.inj h
      exact .rwlock _ s.writer _ hpc rfl rfl
  | _ =>
    obtain rfl := Option.some.inj h
    exact .plain hpc rfl

/-- **What a step does.** -/
theorem step_cases (h : step cfg s a = some s') : s.log.aborted = none ∧ Stepped cfg s a s' := by
  unfold step at h
  by_cases hab : s.log.aborted = none
  swap
  · rw [if_pos hab] at h
    cases h
  rw [if_neg (not_not.mpr hab)] at h
  refine ⟨hab, ?_⟩
  cases a with
  | call t call =>
    dsimp only at h
    split at h
    next hpc =>
      split_ifs at h with hall
      obtain rfl := Option.some.inj h
      exact .call hpc hall
    next => cases h
  | exec t =>
    dsimp only at h
    split_ifs at h with hpend
    split at h
    next call stmt next hpc =>
      obtain rfl := Option.some.inj h
      exact execStmt_cases (not_not.mp hpend) hpc
    next => cases h
  | store t =>
    obtain ⟨⟨log, l⟩, hlog, rfl⟩ := Option.map_eq_some_iff.mp h
    exact .store hlog
  | ret t =>
    dsimp only at h
    split_ifs at h with hpend
    split at h
    next call slot hpc =>
      obtain rfl := Option.some.inj h
      exact .atCall (not_not.mp hpend) hpc
    next call r lab hpc =>
      obtain rfl := Option.some.inj h
      exact .idle (not_not.mp hpend) hpc
    next => cases h
  | real t x =>
    dsimp only at h
    split at h
    next call slot hpc => exact real_cases hpc h
    next => cases h
  | wakeUp t =>
    dsimp only at h
    split at h
    next call depth cause hpc =>
      split at h
      next c m hop =>
        split_ifs at h with hown
        obtain rfl := Option.some.inj h
        exact .wakeUp hpc (by rw [hop]; rfl) hown
      next c m hop =>
        split_ifs at h with hown
        obtain rfl := Option.some.inj h
        exact .wakeUp hpc (by rw [hop]; rfl) hown
      next => cases h
    next => cases h
  | second t =>
    dsimp only at h
    split at h
    next call r lab hpc =>
      obtain rfl := Option.some.inj h
      exact .second hpc
    next => cases h
  | exit t =>
    dsimp only at h
    split at h
    next hpc =>
      split_ifs at h with hc
      · obtain rfl := Option.some.inj h
        exact .leave hpc hc
      · obtain rfl := Option.some.inj h
        exact Stepped.exit hpc (Bool.eq_false_of_not_eq_true hc)
    next => cases h
  | flush t =>
    dsimp only at h
    split at h
    next i hpc =>
      obtain rfl := Option.some.inj h
      exact .flush hpc
    next => cases h
  | finish t =>
    dsimp only at h
    split at h
    next hpc =>
      obtain rfl := Option.some.inj h
      exact .finish hpc
    next => cases h

/-! ### Small facts about the parts of a step -/

namespace State

variable (s : State) (t u : ℕ) (pc : Pc)

theorem setPc_thr : (s.setPc t pc).thr u = if u = t then { s.thr u with pc } else s.thr u := by
  unfold setPc
  by_cases hu : u = t
  · subst hu
    simp
  · simp [hu]

@[simp] theorem setPc_self : ((s.setPc t pc).thr t).pc = pc := by simp [setPc]

@[simp] theorem setPc_log_self : ((s.setPc t pc).thr u).log = (s.thr u).log := by
  rw [setPc_thr]
  split_ifs <;> rfl

variable {t u} in
theorem setPc_of_ne (hu : u ≠ t) : (s.setPc t pc).thr u = s.thr u := by rw [setPc_thr, if_neg hu]

theorem setPc_eq_self : s.setPc t (s.thr t).pc = s := by simp [setPc]

end State

/-- **The first half of a wrapper** moves its thread, and may set `__is_started`. -/
theorem enter_eq (cfg : Config) (s : State) (t : ℕ) (call : Call) :
    ∃ started pc, enter cfg s t call = { s.setPc t pc with started := started } := by
  unfold enter
  dsimp only
  split_ifs with hop
  · exact ⟨s.setStarted.started, _, rfl⟩
  · exact ⟨s.setStarted.started, _, rfl⟩
  · exact ⟨s.started, _, rfl⟩
  · exact ⟨s.started, _, rfl⟩

@[simp] theorem enter_finished (cfg : Config) (s : State) (t : ℕ) (call : Call) :
    (enter cfg s t call).finished = s.finished := by
  obtain ⟨started, pc, heq⟩ := enter_eq cfg s t call
  rw [heq]
  rfl

/-- **A round of the loop** moves its thread, and writes to the file or stops the program. -/
theorem flushRound_eq (s : State) (t i : ℕ) : ∃ pc file aborted, flushRound s t i =
    { s.setPc t pc with file := file, log := { s.log with aborted := aborted } } := by
  unfold flushRound
  split_ifs with hi
  · split
    next e he =>
      split_ifs
      · exact ⟨(s.thr t).pc, s.file, some .flush, by rw [s.setPc_eq_self]; rfl⟩
      · exact ⟨.flushing (i + 1), s.file ++ [e], s.log.aborted, rfl⟩
      · exact ⟨(s.thr t).pc, s.file, some .storeEvent, by rw [s.setPc_eq_self]; rfl⟩
    next he => exact ⟨(s.thr t).pc, s.file, some .flush, by rw [s.setPc_eq_self]; rfl⟩
  · exact ⟨.ended, s.file, s.log.aborted, rfl⟩

/-- **Other threads**: a step leaves them alone, but for the thread that it creates and those
that it wakes. -/
theorem thr_of_ne {u : ℕ} (hstep : Stepped cfg s a s') (hu : u ≠ a.thread) :
    s'.thr u = s.thr u ∨
      (u = s.nrThread ∧ s'.nrThread = s.nrThread + 1 ∧ (∃ call slot, (s.thr a.thread).pc = .atCall call slot ∧ call.op = .create) ∧
        s'.thr u = { s.thr u with pc := .idle }) ∨
      ∃ call depth i, (s.thr u).pc = .waiting call depth none ∧
        s'.thr u = { s.thr u with pc := .waiting call depth (some i) } := by
  cases hstep with
  | @call t call hpc hall =>
    obtain ⟨started, pc, heq⟩ := enter_eq cfg s t call
    rw [heq]
    exact Or.inl (State.setPc_of_ne _ _ hu)
  | @spawn t call slot x hpc hop hlt =>
    rw [State.setPc_of_ne _ _ (show u ≠ t from hu)]
    by_cases hc : u = s.nrThread
    · refine Or.inr (Or.inl ⟨hc, rfl, ⟨_, _, hpc, hop⟩, ?_⟩)
      simp [State.spawn, State.record, State.setPc_thr, hc]
    · apply Or.inl
      simp [State.spawn, State.record, State.setPc_thr, hc]
  | @signal t c call slot x p hpc hop =>
    rw [State.setPc_of_ne _ _ (show u ≠ t from hu)]
    by_cases hw : (p u && (s.thr u).pc.waitsFor c) = true
    · refine Or.inr (Or.inr ?_)
      have hwait := (Bool.and_eq_true_iff.mp hw).2
      cases hpc' : (s.thr u).pc with
      | waiting call' depth cause =>
        rw [hpc'] at hwait
        cases cause with
        | none =>
          refine ⟨call', depth, s.hist.length, rfl, ?_⟩
          simp only [State.wake, State.record]
          rw [if_pos hw, hpc']
          rfl
        | some i => cases hwait
      | _ =>
        rw [hpc'] at hwait
        cases hwait
    · apply Or.inl
      simp only [State.wake, State.record, hw, Bool.false_eq_true, if_false]
  | @flush t i hpc =>
    obtain ⟨pc, file, aborted, heq⟩ := flushRound_eq s t i
    rw [heq]
    exact Or.inl (State.setPc_of_ne _ _ hu)
  | @log t call lc next log l hpend hpc hlog hsz =>
    apply Or.inl
    rw [State.setPc_of_ne _ _ (show u ≠ t from hu)]
    exact Function.update_of_ne hu _ _
  | @reserve t call lc next log l hpend hpc hlog hsz =>
    apply Or.inl
    rw [State.setPc_of_ne _ _ (show u ≠ t from hu)]
    exact Function.update_of_ne hu _ _
  | store hlog => exact Or.inl (Function.update_of_ne hu _ _)
  | _ => exact Or.inl (State.setPc_of_ne _ _ hu)

/-- A state that some interleaving leads to, by steps that satisfy `P`. -/
def ReachableBy (cfg : Config) (P : State → Action → Prop) (s : State) : Prop :=
  Reach (step cfg) P init s

/-- A state that some interleaving leads to. -/
def Reachable (cfg : Config) (s : State) : Prop := ReachableBy cfg (fun _ _ => True) s

/-- The logger is on, and the addresses from 100 on are condition variables. -/
def traced : Config := ⟨⟨true, false, false⟩, fun a => 100 ≤ a⟩

end Interface

end Schnauzer
