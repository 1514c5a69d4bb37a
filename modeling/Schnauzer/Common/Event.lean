import Mathlib.Algebra.Ring.Nat
import Mathlib.Data.Int.Basic
import Mathlib.Tactic.SplitIfs
import Mathlib.Tactic.Tauto

/-!
# Events

The record that the runtime writes and the analysis reads (`common/Event.h`, the
layout without `COMPACT_EVENT`). The fields are those of the source; its 64-bit
fields and thread ids are naturals, and the 8-bit type field is one of the
enumerators or any other value a file may hold.

The analysis is full of `assert`s, which are compiled in (no `NDEBUG`). A function that
may fail one returns in `Except Abort`, and `Abort` says which `assert` it was.
-/

namespace Schnauzer

/-- An address (`address_t`). -/
abbrev Addr := ℕ

/-- `UNDEFINED_TID`. -/
def UNDEFINED_TID : ℕ := 255

/-- The `assert` that stopped the analysis. -/
inductive Abort where
  /-- `Event::getLength`: not an access, or an access of no bytes. -/
  | getLength
  /-- `Event::getThread`: a thread id that is not below `UNDEFINED_TID`. -/
  | getThread
  /-- A thread id that indexes no clock (`thread_vc_`, `VectorClock::incTick`). -/
  | threadIndex
  /-- `VarMeta::updateHB`: neither a thread operation nor a synchronisation. -/
  | updateHB
  /-- `VarMeta::getRaceEvents`: an operation of the wrong type, in a set or as the event. -/
  | getRaceEvents
  /-- `VarMeta::putSyncRel`, `VarMeta::getSyncHbEvents`. -/
  | syncRel
  /-- `RaceAnalyze::addRace`, `RaceAnalyze::addSyncHb`: two addresses. -/
  | addRace
  /-- `RaceAnalyze::analyze`: the last `else`. -/
  | analyze
  /-- `TraceParser::nextEvent`: a timestamp that is not the event's position. -/
  | nextEvent
  /-- `DepGraph::loadTrace`: the last `else`. -/
  | loadTrace
  /-- `Event::getAddress`: a thread operation. -/
  | getAddress
  /-- `InstRacePair`: the first event is no access of one byte. -/
  | instRacePair
  /-- `InstRaceTable::RuntimeRace`: two addresses. -/
  | runtimeRace
  /-- `Aux::format`: a text that does not fit its buffer. -/
  | format
  /-- `SummaryItem::incItem`: an unknown name, or an amount that is not positive. -/
  | incItem
  /-- `DetectPass::analyze`: two addresses. -/
  | detectPass
  /-- A pointer to no event. -/
  | dangling
  deriving DecidableEq, Repr

section Except

variable {ε α β : Type}

/-- A sequence succeeds when both halves do. -/
theorem bind_eq_ok {x : Except ε α} {f : α → Except ε β} {b : β} :
    x >>= f = .ok b ↔ ∃ a, x = .ok a ∧ f a = .ok b := by
  cases x with
  | error e => simp [bind, Except.bind]
  | ok a => simp [bind, Except.bind]

theorem ok_bind (a : α) (f : α → Except ε β) : (Except.ok a >>= f) = f a := rfl

theorem bind_ok (x : Except ε α) : (x >>= fun a => .ok a) = x := bind_pure x

@[simp] theorem pure_eq_ok {a b : α} : (pure a : Except ε α) = .ok b ↔ a = b := by
  simp [pure, Except.pure]

theorem map_eq_ok {f : α → β} {x : Except ε α} {b : β} :
    x.map f = .ok b ↔ ∃ a, x = .ok a ∧ f a = b := by
  cases x with
  | error e => simp [Except.map]
  | ok a => simp [Except.map]

theorem toOption_eq_some {x : Except ε α} {a : α} : x.toOption = some a ↔ x = .ok a := by
  cases x with
  | error e => simp [Except.toOption]
  | ok b => simp [Except.toOption]

@[simp] theorem throw_ne_ok {e : ε} {b : α} : (throw e : Except ε α) ≠ .ok b := by
  intro h
  cases h

end Except

/-- The type of an event (`op_ty_`). -/
inductive OpTy where
  | create | join | ld | st | trylock | lock | unlock | wait | awake | signal | broadcast | call
  /-- A value of the field that is no enumerator. -/
  | other (code : ℤ)
  deriving DecidableEq, Repr

/-- The number of an enumerator. -/
def OpTy.code : OpTy → ℤ
  | .create => 12 | .join => 13 | .ld => 14 | .st => 15 | .trylock => 16 | .lock => 17
  | .unlock => 18 | .wait => 19 | .awake => 20 | .signal => 21 | .broadcast => 22 | .call => 23
  | .other code => code

/-- `Event`. -/
@[ext]
structure Event where
  /-- The instruction. -/
  instUniqueId : ℕ
  /-- The position in the log. -/
  timestamp : ℕ
  /-- The address accessed, or of the mutex or condition variable. -/
  varAddr : Addr
  /-- How many bytes. -/
  varLen : ℕ
  /-- What happened. -/
  opTy : OpTy
  /-- The thread. -/
  tid : ℕ
  /-- The thread created or joined. -/
  remoteTid : ℕ
  deriving DecidableEq, Repr

namespace Event

/-- `Event::makeVarAccessEvent`. -/
def makeVarAccessEvent (inst ts tid : ℕ) (ty : OpTy) (addr : Addr) : Event :=
  ⟨inst, ts, addr, 1, ty, tid, 0⟩

/-- `Event::makeArrayAccessEvent`. -/
def makeArrayAccessEvent (inst ts tid : ℕ) (ty : OpTy) (addr : Addr) (len : ℕ) : Event :=
  ⟨inst, ts, addr, len, ty, tid, 0⟩

/-- `Event::makeSyncOpEvent`. -/
def makeSyncOpEvent (inst ts tid : ℕ) (ty : OpTy) (addr : Addr) : Event :=
  ⟨inst, ts, addr, 1, ty, tid, 0⟩

/-- `Event::makeThreadEvent`. -/
def makeThreadEvent (inst ts tid : ℕ) (ty : OpTy) (remoteTid : ℕ) : Event :=
  ⟨inst, ts, 0, 0, ty, tid, remoteTid⟩

/-- `Event::makeFuncCallEvent`. -/
def makeFuncCallEvent (inst ts tid : ℕ) : Event :=
  ⟨inst, ts, 0, 0, .call, tid, 0⟩

/-- `Event::isAccessEvent`. -/
def isAccessEvent (e : Event) : Bool := e.opTy = .ld || e.opTy = .st

/-- `Event::isSyncOpEvent`. -/
def isSyncOpEvent (e : Event) : Bool :=
  e.opTy = .lock || e.opTy = .unlock || e.opTy = .trylock || e.opTy = .wait || e.opTy = .awake ||
    e.opTy = .signal || e.opTy = .broadcast

/-- `Event::isSyncAcqEvent`. -/
def isSyncAcqEvent (e : Event) : Bool := e.opTy = .lock || e.opTy = .trylock || e.opTy = .awake

/-- `Event::isSyncRelEvent`. -/
def isSyncRelEvent (e : Event) : Bool := e.opTy = .unlock || e.opTy = .signal || e.opTy = .broadcast

/-- `Event::isThreadOpEvent`. -/
def isThreadOpEvent (e : Event) : Bool := e.opTy = .create || e.opTy = .join

/-- `Event::isFuncCallEvent`. -/
def isFuncCallEvent (e : Event) : Bool := e.opTy = .call

/-- `Event::getLength`. -/
def getLength (e : Event) : Except Abort ℕ :=
  if e.isAccessEvent ∧ 0 < e.varLen then .ok e.varLen else .error .getLength

/-- `Event::getThread`. -/
def getThread (e : Event) : Except Abort ℕ :=
  if e.tid < UNDEFINED_TID then .ok e.tid else .error .getThread

/-- `Event::getAddress`. -/
def getAddress (e : Event) : Except Abort Addr :=
  if e.opTy ≠ .create ∧ e.opTy ≠ .join then .ok e.varAddr else .error .getAddress

/-- `Event::isVarAccessEvent`. -/
def isVarAccessEvent (e : Event) : Except Abort Bool :=
  if e.isAccessEvent then do
    let len ← e.getLength
    return len = 1
  else return false

/-- `Event::expandArrayAccessEvent`; an address is 64 bits. -/
def expandArrayAccessEvent (e : Event) (pos : ℕ) : Event :=
  { e with varLen := 1, varAddr := (e.varAddr + pos) % UInt64.size }

/-- The `assert` of `Event::storeEvent`. -/
def Storable (e : Event) : Prop := 12 ≤ e.opTy.code ∧ e.opTy.code ≤ 22

instance (e : Event) : Decidable e.Storable := inferInstanceAs (Decidable (_ ∧ _))

/-! ### Which kind an event is -/

theorem isAccessEvent_iff {e : Event} : e.isAccessEvent ↔ e.opTy = .ld ∨ e.opTy = .st := by
  simp [isAccessEvent]

theorem isThreadOpEvent_iff {e : Event} : e.isThreadOpEvent ↔ e.opTy = .create ∨ e.opTy = .join := by
  simp [isThreadOpEvent]

theorem isSyncAcqEvent_iff {e : Event} :
    e.isSyncAcqEvent ↔ e.opTy = .lock ∨ e.opTy = .trylock ∨ e.opTy = .awake := by
  simp [isSyncAcqEvent, or_assoc]

theorem isSyncRelEvent_iff {e : Event} :
    e.isSyncRelEvent ↔ e.opTy = .unlock ∨ e.opTy = .signal ∨ e.opTy = .broadcast := by
  simp [isSyncRelEvent, or_assoc]

/-- A synchronisation acquires, releases or waits. -/
theorem isSyncOpEvent_iff {e : Event} :
    e.isSyncOpEvent ↔ e.isSyncAcqEvent ∨ e.isSyncRelEvent ∨ e.opTy = .wait := by
  simp only [isSyncOpEvent, isSyncAcqEvent, isSyncRelEvent, Bool.or_eq_true, decide_eq_true_eq]
  tauto

theorem isVarAccessEvent_eq_true {e : Event} :
    e.isVarAccessEvent = .ok true ↔ e.isAccessEvent ∧ e.varLen = 1 := by
  unfold isVarAccessEvent getLength
  by_cases ha : e.isAccessEvent
  · by_cases hl : 0 < e.varLen
    · simp [ha, hl, pure, Except.pure, bind, Except.bind]
    · simp [ha, hl, bind, Except.bind]
      omega
  · simp [ha, pure, Except.pure]

end Event

end Schnauzer
