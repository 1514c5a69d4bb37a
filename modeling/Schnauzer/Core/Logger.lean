import Schnauzer.Common.Event
import Schnauzer.Lib.SlotLog
import Mathlib.Logic.Function.Basic
import Mathlib.Data.List.Range
import Mathlib.Data.List.Nodup

/-!
# The logger

`runtime/core/Logger`: the log `__events`, its common size `__log_sz`, and the batch that
each thread keeps. Every logging function takes its slots by an atomic `fetch_add` on the
size (`exec`) and stores its events afterwards, one by one (`store`); between the two any
other thread may run. An `assert` that fails stops the program (`aborted`).

The memory of `__events` is not initialised: a slot that was never written is `none`.
-/

namespace Schnauzer

/-- `MAX_NR_EVENTS`, with `sizeof(Event) == 40`. -/
def MAX_NR_EVENTS : ℕ := 1000000000 / 40 * 4

/-- `MAX_NUMBER`, the largest 64-bit number. -/
def MAX_NUMBER : ℕ := UInt64.size - 1

/-- The `assert` of the logger that failed. -/
inductive LogAbort where
  /-- `assert(!__sample)`, reached when the logger is off. -/
  | sample
  /-- `startBatch`, `startBatchFor`: a batch is open. -/
  | startBatch
  /-- `endBatch`: events of the batch are missing. -/
  | endBatch
  /-- `fetchAddLogSize`: the batch is full. -/
  | batchFull
  /-- The log is full. -/
  | maxNrEvents
  /-- `logThreadCreateEvent`: no batch is open. -/
  | inBatch
  /-- `flush`: a slot whose timestamp is not its index. -/
  | flush
  /-- `Event::storeEvent`: the type of an event. -/
  | storeEvent
  deriving DecidableEq, Repr

/-- The settings that the logger reads. -/
structure LogConfig where
  /-- `__logger_enable`. -/
  enable : Bool
  /-- `__sample`. -/
  sample : Bool
  /-- `__log_libc_mem_op`. -/
  logLibcMemOp : Bool

/-- `logLibcMemOp`. -/
def LogConfig.libc (cfg : LogConfig) : Bool := cfg.enable && cfg.logLibcMemOp

/-- What the threads share. -/
structure LogState where
  /-- `__log_sz`. -/
  logSz : ℕ
  /-- `__events`. -/
  events : ℕ → Option Event
  /-- The `assert` that has failed. -/
  aborted : Option LogAbort

/-- What a thread keeps. -/
structure LogLocal where
  /-- `__batch_id`. -/
  batchId : ℕ
  /-- `__batch_pos`. -/
  batchPos : ℕ
  /-- `__batch_sz`. -/
  batchSz : ℕ
  /-- The stores into `__events` that the current logging function has yet to make. -/
  pend : List (ℕ × Event)
  /-- The slots handed out for the latest batch, or for the latest event or pair of events outside
  one. No function reads it. -/
  drawn : List ℕ

/-- The logging functions that the hooks call. -/
inductive LogCall where
  | startBatch (nr : ℕ)
  | startBatchFor (addrs : List Addr)
  | endBatch
  | logVarAccessEvent (ty : OpTy) (addr : Addr)
  | logArrayAccessEvent (ty : OpTy) (addr : Addr) (len : ℕ)
  | logSyncOpEvent (ty : OpTy) (addr : Addr)
  | logThreadCreateEvent (remoteTid : ℕ)
  | logThreadJoinEvent (remoteTid : ℕ)
  | logCondWaitEvent (mutexAddr condAddr : Addr)
  | logCondAwakeEvent (mutexAddr condAddr : Addr)
  deriving DecidableEq

namespace Logger

/-- The log before the first event. -/
def init : LogState := ⟨0, fun _ => none, none⟩

/-- A thread that has logged nothing. -/
def initLocal : LogLocal := ⟨MAX_NUMBER, MAX_NUMBER, MAX_NUMBER, [], []⟩

/-- An `assert` fails. -/
def abort (a : LogAbort) (st : LogState) : LogState := { st with aborted := some a }

/-- `__log_sz.fetch_add(nr)`. -/
def fetchAdd (nr : ℕ) (st : LogState) : LogState := { st with logSz := st.logSz + nr }

/-- `inBatch`. -/
def inBatch (l : LogLocal) : Bool := l.batchId ≠ MAX_NUMBER

/-- The batch variables as `endBatch` leaves them. -/
def noBatch (l : LogLocal) : Bool :=
  l.batchId = MAX_NUMBER && l.batchPos = MAX_NUMBER && l.batchSz = MAX_NUMBER

/-- The reservation of a batch of `nr` events. -/
def openBatch (nr : ℕ) (st : LogState) (l : LogLocal) : LogState × LogLocal :=
  (fetchAdd nr st, { l with batchId := st.logSz, batchPos := 0, batchSz := nr, drawn := [] })

/-- `startBatch`; when the logger is off, `return assert(!__sample)`. -/
def startBatch (cfg : LogConfig) (nr : ℕ) (st : LogState) (l : LogLocal) : LogState × LogLocal :=
  if ¬ cfg.enable then (if cfg.sample then abort .sample st else st, l)
  else if noBatch l then openBatch nr st l
  else (abort .startBatch st, l)

/-- The number of addresses that `startBatchFor` counts. -/
def nrValidAddr (isOnStack : Addr → Bool) (addrs : List Addr) : ℕ :=
  addrs.countP fun a => !isOnStack a

/-- `startBatchFor`: with fewer than two valid addresses there is no batch. -/
def startBatchFor (cfg : LogConfig) (isOnStack : Addr → Bool) (addrs : List Addr) (st : LogState)
    (l : LogLocal) : LogState × LogLocal :=
  if ¬ cfg.enable then (if cfg.sample then abort .sample st else st, l)
  else if noBatch l then
    if nrValidAddr isOnStack addrs > 1 then openBatch (nrValidAddr isOnStack addrs) st l
    else (st, { l with drawn := [] })
  else (abort .startBatch st, l)

/-- `endBatch`. -/
def endBatch (cfg : LogConfig) (st : LogState) (l : LogLocal) : LogState × LogLocal :=
  if ¬ cfg.enable then (if cfg.sample then abort .sample st else st, l)
  else if l.batchPos = l.batchSz then
    (st, { l with batchId := MAX_NUMBER, batchPos := MAX_NUMBER, batchSz := MAX_NUMBER })
  else (abort .endBatch st, l)

/-- One event in the slot that `fetchAddLogSize` returns. -/
def logEvent (mk : ℕ → Event) (st : LogState) (l : LogLocal) : LogState × LogLocal :=
  if inBatch l then
    if l.batchPos < l.batchSz then
      let ts := l.batchId + l.batchPos
      let l := { l with batchPos := l.batchPos + 1, drawn := l.drawn ++ [ts] }
      if ts < MAX_NR_EVENTS then (st, { l with pend := [(ts, mk ts)] })
      else (abort .maxNrEvents st, l)
    else (abort .batchFull st, l)
  else
    let ts := st.logSz
    let l := { l with drawn := [ts] }
    if ts < MAX_NR_EVENTS then (fetchAdd 1 st, { l with pend := [(ts, mk ts)] })
    else (abort .maxNrEvents (fetchAdd 1 st), l)

/-- Two events in two slots of their own, even when a batch is open. -/
def logPair (mk mk' : ℕ → Event) (st : LogState) (l : LogLocal) : LogState × LogLocal :=
  let ts := st.logSz
  if ts + 1 < MAX_NR_EVENTS then
    (fetchAdd 2 st, { l with pend := [(ts, mk ts), (ts + 1, mk' (ts + 1))], drawn := [ts, ts + 1] })
  else (abort .maxNrEvents (fetchAdd 2 st), l)

/-- A logging function up to its stores. -/
def exec (cfg : LogConfig) (isOnStack : Addr → Bool) (inst tid : ℕ) (st : LogState) (l : LogLocal) :
    LogCall → LogState × LogLocal
  | .startBatch nr => startBatch cfg nr st l
  | .startBatchFor addrs => startBatchFor cfg isOnStack addrs st l
  | .endBatch => endBatch cfg st l
  | .logVarAccessEvent ty addr =>
    if ¬ cfg.enable ∨ isOnStack addr then (st, l)
    else logEvent (fun ts => .makeVarAccessEvent inst ts tid ty addr) st l
  | .logArrayAccessEvent ty addr len =>
    if ¬ cfg.enable ∨ isOnStack addr then (st, l)
    else logEvent (fun ts => .makeArrayAccessEvent inst ts tid ty addr len) st l
  | .logSyncOpEvent ty addr =>
    if ¬ cfg.enable then (st, l)
    else logEvent (fun ts => .makeSyncOpEvent inst ts tid ty addr) st l
  | .logThreadCreateEvent remoteTid =>
    if ¬ cfg.enable then (st, l)
    else if inBatch l then logEvent (fun ts => .makeThreadEvent inst ts tid .create remoteTid) st l
    else (abort .inBatch st, l)
  | .logThreadJoinEvent remoteTid =>
    if ¬ cfg.enable then (st, l)
    else logEvent (fun ts => .makeThreadEvent inst ts tid .join remoteTid) st l
  | .logCondWaitEvent mutexAddr condAddr =>
    if ¬ cfg.enable then (st, l)
    else logPair (fun ts => .makeSyncOpEvent inst ts tid .unlock mutexAddr)
      (fun ts => .makeSyncOpEvent inst ts tid .wait condAddr) st l
  | .logCondAwakeEvent mutexAddr condAddr =>
    if ¬ cfg.enable then (st, l)
    else logPair (fun ts => .makeSyncOpEvent inst ts tid .lock mutexAddr)
      (fun ts => .makeSyncOpEvent inst ts tid .awake condAddr) st l

/-- The next store into `__events`. -/
def store (st : LogState) (l : LogLocal) : Option (LogState × LogLocal) :=
  match l.pend with
  | [] => none
  | (ts, evt) :: pend =>
    some ({ st with events := Function.update st.events ts (some evt) }, { l with pend })

end Logger

end Schnauzer
