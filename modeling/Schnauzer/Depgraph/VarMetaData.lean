import Schnauzer.Depgraph.VectorClock
import Mathlib.Logic.Function.Basic
import Mathlib.Data.List.Basic

/-!
# Clocks and access sets

`analyze/depgraph/VarMetaData`: the clocks of the threads and of the synchronisation
variables, the reads and writes remembered for each address, and what an event does to
them.

A `const Event *` is the place of the event in `tot_events_`, with the event that is
there (`EventPtr`). A map whose entries are made on first use is a total function with
the fresh entry (a zero clock, an empty set) where nothing was stored; `getReadSet` and
`getWriteSet` answer `nullptr` for a missing entry, which the loops treat as the empty set.
A `std::set<Operation>` is ordered by `id_`, which every construction of an `Operation`
takes from the counter `cnt_`.
-/

namespace Schnauzer

/-- `const Event *`. -/
structure EventPtr where
  /-- The place in `tot_events_`. -/
  pos : ℕ
  /-- The event there. -/
  evt : Event
  deriving DecidableEq

/-- `Operation`: an event and a copy of its thread's clock. -/
structure Operation where
  /-- `id_`. -/
  id : ℕ
  /-- `getEvent`. -/
  getEvent : EventPtr
  /-- `getVC`. -/
  getVC : VectorClock

/-- `emplace` on a `std::set<Operation>`: nothing is inserted when an operation with
that `id_` is there. -/
def emplace (ops : List Operation) (op : Operation) : List Operation :=
  if ops.any fun o => o.id = op.id then ops
  else ops.takeWhile (fun o => o.id < op.id) ++ op :: ops.dropWhile (fun o => o.id < op.id)

/-- `VarMeta`. -/
structure VarMeta where
  /-- `thread_vc_`. -/
  threadVc : Fin MAX_THREAD → VectorClock
  /-- `is_thread_vc_init_`. -/
  isThreadVcInit : Fin MAX_THREAD → Bool
  /-- `sync_var_vc_table_`. -/
  syncVarVcTable : Addr → VectorClock
  /-- `var_rset_table_`. -/
  varRsetTable : Addr → List Operation
  /-- `var_wset_table_`. -/
  varWsetTable : Addr → List Operation
  /-- `sync_rel_table_`. -/
  syncRelTable : Addr → List Operation
  /-- `Operation::cnt_`. -/
  cnt : ℕ

namespace VarMeta

/-- `new VarMeta()`. -/
def init : VarMeta where
  threadVc := fun _ => .zero
  isThreadVcInit := fun _ => false
  syncVarVcTable := fun _ => .zero
  varRsetTable := fun _ => []
  varWsetTable := fun _ => []
  syncRelTable := fun _ => []
  cnt := 0

/-- `*vc = …` for a pointer into `thread_vc_`. -/
def setThreadVC (m : VarMeta) (t : Fin MAX_THREAD) (vc : VectorClock) : VarMeta :=
  { m with threadVc := Function.update m.threadVc t vc }

/-- `*vc = …` for a pointer into `sync_var_vc_table_`. -/
def setSyncVarVC (m : VarMeta) (a : Addr) (vc : VectorClock) : VarMeta :=
  { m with syncVarVcTable := Function.update m.syncVarVcTable a vc }

/-- `VarMeta::getThreadVC` once the index is known to be in range. -/
def initThreadVC (m : VarMeta) (t : Fin MAX_THREAD) : VarMeta :=
  if m.isThreadVcInit t then m
  else { m with isThreadVcInit := Function.update m.isThreadVcInit t true
                threadVc := Function.update m.threadVc t ((m.threadVc t).incTick t) }

/-- `VarMeta::getThreadVC`: the index into `thread_vc_`, whose clock has its first tick. -/
def getThreadVC (m : VarMeta) (tid : ℕ) : Except Abort (Fin MAX_THREAD × VarMeta) :=
  if h : tid < MAX_THREAD then .ok (⟨tid, h⟩, m.initThreadVC ⟨tid, h⟩)
  else .error .threadIndex

/-- `VarMeta::handleThreadOpEvent`. -/
def handleThreadOpEvent (m : VarMeta) (evt : Event) : Except Abort VarMeta := do
  let (curr, m) ← m.getThreadVC evt.tid
  if evt.opTy = .create then
    let (remote, m) ← m.getThreadVC evt.remoteTid
    let m := m.setThreadVC remote ((m.threadVc remote).merge (m.threadVc curr))
    return m.setThreadVC curr ((m.threadVc curr).incTick curr)
  else if evt.opTy = .join then
    let (remote, m) ← m.getThreadVC evt.remoteTid
    let m := m.setThreadVC curr ((m.threadVc curr).merge (m.threadVc remote))
    return m.setThreadVC remote ((m.threadVc remote).incTick remote)
  else return m

/-- `VarMeta::handleSyncOpEvent`. -/
def handleSyncOpEvent (m : VarMeta) (evt : Event) : Except Abort VarMeta := do
  let (curr, m) ← m.getThreadVC evt.tid
  let a := evt.varAddr
  if evt.opTy = .lock ∨ evt.opTy = .trylock then
    return m.setThreadVC curr ((m.threadVc curr).merge (m.syncVarVcTable a))
  else if evt.opTy = .unlock then
    let m := m.setSyncVarVC a ((m.syncVarVcTable a).merge (m.threadVc curr))
    return m.setThreadVC curr ((m.threadVc curr).incTick curr)
  else if evt.opTy = .wait then
    return m
  else if evt.opTy = .signal then
    let m := m.setSyncVarVC a ((m.syncVarVcTable a).merge (m.threadVc curr))
    return m.setThreadVC curr ((m.threadVc curr).incTick curr)
  else if evt.opTy = .awake then
    return m.setThreadVC curr ((m.threadVc curr).merge (m.syncVarVcTable a))
  else if evt.opTy = .broadcast then
    let m := m.setSyncVarVC a ((m.syncVarVcTable a).merge (m.threadVc curr))
    return m.setThreadVC curr ((m.threadVc curr).incTick curr)
  else return m

/-- `VarMeta::updateHB`. -/
def updateHB (m : VarMeta) (evt : Event) : Except Abort VarMeta :=
  if evt.isThreadOpEvent then m.handleThreadOpEvent evt
  else if evt.isSyncOpEvent then m.handleSyncOpEvent evt
  else .error .updateHB

/-- `VarMeta::putRead`. -/
def putRead (m : VarMeta) (p : EventPtr) : Except Abort VarMeta := do
  let (curr, m) ← m.getThreadVC p.evt.tid
  let a := p.evt.varAddr
  return { m with
    varRsetTable := Function.update m.varRsetTable a
      (emplace (m.varRsetTable a) ⟨m.cnt, p, m.threadVc curr⟩)
    cnt := m.cnt + 1 }

/-- `VarMeta::putWrite`. -/
def putWrite (m : VarMeta) (p : EventPtr) : Except Abort VarMeta := do
  let (curr, m) ← m.getThreadVC p.evt.tid
  let a := p.evt.varAddr
  return { m with
    varRsetTable := Function.update m.varRsetTable a []
    varWsetTable := Function.update m.varWsetTable a (emplace [] ⟨m.cnt, p, m.threadVc curr⟩)
    cnt := m.cnt + 1 }

/-- `VarMeta::clearSyncRel`. -/
def clearSyncRel (m : VarMeta) (p : EventPtr) : VarMeta :=
  { m with syncRelTable := Function.update m.syncRelTable p.evt.varAddr [] }

/-- `VarMeta::putSyncRel`. -/
def putSyncRel (m : VarMeta) (p : EventPtr) : Except Abort VarMeta :=
  if ¬ p.evt.isSyncRelEvent then .error .syncRel
  else do
    let (curr, m) ← m.getThreadVC p.evt.tid
    let a := p.evt.varAddr
    return { m with
      syncRelTable := Function.update m.syncRelTable a
        (emplace (m.syncRelTable a) ⟨m.cnt, p, m.threadVc curr⟩)
      cnt := m.cnt + 1 }

/-- A loop of `VarMeta::getRaceEvents` over the operations of one set: each must be of
type `ty`, and those not ordered with `vc` are added to `ret`. -/
def raceLoop (ty : OpTy) (vc : VectorClock) : List Operation → List EventPtr →
    Except Abort (List EventPtr)
  | [], ret => .ok ret
  | op :: ops, ret =>
    if op.getEvent.evt.opTy ≠ ty then .error .getRaceEvents
    else raceLoop ty vc ops (if op.getVC.isConcurrentWith vc then ret.insert op.getEvent else ret)

/-- `VarMeta::getRaceEvents`. -/
def getRaceEvents (m : VarMeta) (evt : Event) : Except Abort (List EventPtr × VarMeta) := do
  let (curr, m) ← m.getThreadVC evt.tid
  let vc := m.threadVc curr
  let a := evt.varAddr
  if evt.opTy = .ld then
    let ret ← raceLoop .st vc (m.varWsetTable a) []
    return (ret, m)
  else if evt.opTy = .st then
    let ret ← raceLoop .ld vc (m.varRsetTable a) []
    let ret ← raceLoop .st vc (m.varWsetTable a) ret
    return (ret, m)
  else throw .getRaceEvents

/-- The loop of `VarMeta::getSyncHbEvents`. -/
def syncHbLoop : List Operation → List EventPtr → Except Abort (List EventPtr)
  | [], ret => .ok ret
  | op :: ops, ret =>
    if ¬ op.getEvent.evt.isSyncRelEvent then .error .syncRel
    else syncHbLoop ops (ret.insert op.getEvent)

/-- `VarMeta::getSyncHbEvents`. -/
def getSyncHbEvents (m : VarMeta) (evt : Event) : Except Abort (List EventPtr) :=
  if ¬ evt.isSyncAcqEvent then .error .syncRel
  else syncHbLoop (m.syncRelTable evt.varAddr) []

end VarMeta

end Schnauzer
