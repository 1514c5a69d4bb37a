import Schnauzer.Core.LogSlots

/-!
# The sizes of the log buffers

`runtime/core/Logger`, with its counters as numbers of 64 bits, and the allocation wrappers of
`runtime/core/Interface`: at which index each call stores into `__events` and `__mem_alloc_events`. The index
is fixed by the `fetch_add` of the call, so a call is one step here; `none` is an `assert` that fails, which
stops the program. What an allocation function returns and the call stack are given with the call.

## What is proved

* `fetchAddLogSize_lt` — a single event and an event of a batch are stored in range.
* `step_inRange` — what one call stores.
* `storesInRange_iff` — for which sequences of calls every store is in range.
-/

namespace Schnauzer

/-- `MAX_NR_MEM_EVENTS`, with `sizeof(Event) == 40`. -/
def MAX_NR_MEM_EVENTS : ℕ := 1000000 / 40 * 500

namespace LogBuffers

/-- `MAX_NUMBER`. -/
def maxNumber : UInt64 := UInt64.ofNat MAX_NUMBER

/-- `MemAllocEvent`. -/
structure MemAllocEvent where
  /-- `addr_`. -/
  addr : Addr
  /-- `sz_`. -/
  sz : ℕ
  /-- `callstack_`. -/
  callstack : List ℕ

/-- The wrappers that log an allocation. -/
inductive Wrapper where
  | malloc
  | calloc
  | realloc
  deriving DecidableEq

/-- A call, of the instruction `inst`. -/
inductive Call where
  | log (inst : ℕ) (lc : LogCall)
  | logFuncCallEvent (inst : ℕ)
  | alloc (w : Wrapper) (evt : MemAllocEvent)

/-- The settings. -/
structure Config extends LogConfig where
  /-- `__log_mem_alloc`. -/
  logMemAlloc : Bool

/-- The batch of a thread. -/
structure Batch where
  /-- `__batch_id`. -/
  id : UInt64
  /-- `__batch_pos`. -/
  pos : UInt64
  /-- `__batch_sz`. -/
  sz : UInt64
  deriving DecidableEq

/-- No batch is open. -/
def noBatch : Batch := ⟨maxNumber, maxNumber, maxNumber⟩

/-- The variables of the logger. -/
structure State where
  /-- `__log_sz`. -/
  logSz : UInt64
  /-- `__mem_alloc_events_pos`. -/
  memAllocEventsPos : UInt64
  /-- The batch of each thread. -/
  batch : ℕ → Batch
  /-- `static bool log_mem_alloc`, once it is set. -/
  logMemAlloc : Wrapper → Option Bool

/-- The variables at the start. -/
def init : State := ⟨0, 0, fun _ => noBatch, fun _ => none⟩

/-- A store into a buffer. -/
inductive Store where
  /-- `__events[i] = evt`. -/
  | events (i : UInt64) (evt : Event)
  /-- `__mem_alloc_events[i] = evt`. -/
  | memAllocEvents (i : UInt64) (evt : MemAllocEvent)

/-- The index is one of the buffer. -/
def Store.InRange : Store → Prop
  | .events i _ => i.toNat < MAX_NR_EVENTS
  | .memAllocEvents i _ => i.toNat < MAX_NR_MEM_EVENTS

/-! ### The calls -/

/-- `Logger::logMemAlloc`. -/
def Config.logMem (cfg : Config) : Bool := cfg.enable && cfg.logMemAlloc

/-- The batch of a thread is set. -/
def State.setBatch (st : State) (tid : ℕ) (b : Batch) : State := { st with batch := Function.update st.batch tid b }

/-- The end of `startBatch` and `startBatchFor`. -/
def openBatch (tid : ℕ) (nr : UInt64) (st : State) : State :=
  { st with logSz := st.logSz + nr }.setBatch tid ⟨st.logSz, 0, nr⟩

/-- `fetchAddLogSize`. -/
def fetchAddLogSize (tid : ℕ) (st : State) : Option (UInt64 × State) :=
  let b := st.batch tid
  if b.id ≠ maxNumber then
    if b.pos < b.sz then
      let ts := b.id + b.pos
      if ts.toNat < MAX_NR_EVENTS then some (ts, st.setBatch tid { b with pos := b.pos + 1 }) else none
    else none
  else
    let ts := st.logSz
    if ts.toNat < MAX_NR_EVENTS then some (ts, { st with logSz := st.logSz + 1 }) else none

/-- One event. -/
def logEvent (tid : ℕ) (mk : ℕ → Event) (st : State) : Option (State × List Store) := do
  let (ts, st) ← fetchAddLogSize tid st
  return (st, [.events ts (mk ts.toNat)])

/-- Two events. -/
def logPair (mk mk' : ℕ → Event) (st : State) : Option (State × List Store) :=
  let ts := st.logSz
  if (ts + 1).toNat < MAX_NR_EVENTS then
    some ({ st with logSz := st.logSz + 2 }, [.events ts (mk ts.toNat), .events (ts + 1) (mk' (ts + 1).toNat)])
  else none

/-- `logMemAllocEvent`. -/
def logMemAllocEvent (cfg : Config) (evt : MemAllocEvent) (st : State) : Option (State × List Store) :=
  if ¬ cfg.enable then some (st, [])
  else if cfg.logMemAlloc then
    some ({ st with memAllocEventsPos := st.memAllocEventsPos + 1 }, [.memAllocEvents st.memAllocEventsPos evt])
  else none

/-- `malloc_wrapper`, `calloc_wrapper` and `realloc_wrapper`. -/
def allocWrapper (cfg : Config) (w : Wrapper) (evt : MemAllocEvent) (st : State) : Option (State × List Store) :=
  let logMemAlloc := (st.logMemAlloc w).getD cfg.logMem
  let st := { st with logMemAlloc := Function.update st.logMemAlloc w (some logMemAlloc) }
  if logMemAlloc then logMemAllocEvent cfg evt st else some (st, [])

/-- A logging function; when the logger is off, a batch ends with `return assert(!__sample)`. -/
def logCall (cfg : Config) (isOnStack : Addr → Bool) (inst tid : ℕ) (st : State) :
    LogCall → Option (State × List Store)
  | .startBatch nr =>
    if ¬ cfg.enable then (if cfg.sample then none else some (st, []))
    else if st.batch tid = noBatch then some (openBatch tid (UInt64.ofNat nr) st, [])
    else none
  | .startBatchFor addrs =>
    if ¬ cfg.enable then (if cfg.sample then none else some (st, []))
    else if st.batch tid = noBatch then
      if Logger.nrValidAddr isOnStack addrs > 1 then
        some (openBatch tid (UInt64.ofNat (Logger.nrValidAddr isOnStack addrs)) st, [])
      else some (st, [])
    else none
  | .endBatch =>
    if ¬ cfg.enable then (if cfg.sample then none else some (st, []))
    else if (st.batch tid).pos = (st.batch tid).sz then some (st.setBatch tid noBatch, [])
    else none
  | .logVarAccessEvent ty addr =>
    if ¬ cfg.enable ∨ isOnStack addr then some (st, [])
    else logEvent tid (fun ts => .makeVarAccessEvent inst ts tid ty addr) st
  | .logArrayAccessEvent ty addr len =>
    if ¬ cfg.enable ∨ isOnStack addr then some (st, [])
    else logEvent tid (fun ts => .makeArrayAccessEvent inst ts tid ty addr len) st
  | .logSyncOpEvent ty addr =>
    if ¬ cfg.enable then some (st, [])
    else logEvent tid (fun ts => .makeSyncOpEvent inst ts tid ty addr) st
  | .logThreadCreateEvent remoteTid =>
    if ¬ cfg.enable then some (st, [])
    else if (st.batch tid).id ≠ maxNumber then
      logEvent tid (fun ts => .makeThreadEvent inst ts tid .create remoteTid) st
    else none
  | .logThreadJoinEvent remoteTid =>
    if ¬ cfg.enable then some (st, [])
    else logEvent tid (fun ts => .makeThreadEvent inst ts tid .join remoteTid) st
  | .logCondWaitEvent mutexAddr condAddr =>
    if ¬ cfg.enable then some (st, [])
    else logPair (fun ts => .makeSyncOpEvent inst ts tid .unlock mutexAddr)
      (fun ts => .makeSyncOpEvent inst ts tid .wait condAddr) st
  | .logCondAwakeEvent mutexAddr condAddr =>
    if ¬ cfg.enable then some (st, [])
    else logPair (fun ts => .makeSyncOpEvent inst ts tid .lock mutexAddr)
      (fun ts => .makeSyncOpEvent inst ts tid .awake condAddr) st

/-- A call. -/
def step (cfg : Config) (isOnStack : ℕ → Addr → Bool) (tid : ℕ) (st : State) : Call → Option (State × List Store)
  | .log inst lc => logCall cfg (isOnStack tid) inst tid st lc
  | .logFuncCallEvent inst =>
    if ¬ cfg.enable then some (st, []) else logEvent tid (fun ts => .makeFuncCallEvent inst ts tid) st
  | .alloc w evt => allocWrapper cfg w evt st

/-- The stores of a sequence of calls, each of a thread, until an `assert` fails. -/
def stores (cfg : Config) (isOnStack : ℕ → Addr → Bool) : List (ℕ × Call) → State → List Store
  | [], _ => []
  | (tid, c) :: calls, st =>
    match step cfg isOnStack tid st c with
    | none => []
    | some (st', ss) => ss ++ stores cfg isOnStack calls st'

/-! ### The condition -/

/-- The calls that return, each with the variables before it. -/
def returned (cfg : Config) (isOnStack : ℕ → Addr → Bool) : List (ℕ × Call) → State → List (State × Call)
  | [], _ => []
  | (tid, c) :: calls, st =>
    match step cfg isOnStack tid st c with
    | none => []
    | some (st', _) => (st, c) :: returned cfg isOnStack calls st'

/-- The call is one of an allocation wrapper. -/
def Call.isAlloc : Call → Bool
  | .alloc _ _ => true
  | _ => false

/-- The call logs two events. -/
def Call.isPair : Call → Bool
  | .log _ (.logCondWaitEvent _ _) | .log _ (.logCondAwakeEvent _ _) => true
  | _ => false

/-- No more allocations are logged than fit. -/
def AllocsFit (cfg : Config) (isOnStack : ℕ → Addr → Bool) (calls : List (ℕ × Call)) (st : State) : Prop :=
  cfg.logMem → st.memAllocEventsPos.toNat + (returned cfg isOnStack calls st).countP (·.2.isAlloc) ≤ MAX_NR_MEM_EVENTS

/-- No two events are logged where the second index is the first of the buffer again. -/
def NoWrap (cfg : Config) (isOnStack : ℕ → Addr → Bool) (calls : List (ℕ × Call)) (st : State) : Prop :=
  cfg.enable → ∀ x ∈ returned cfg isOnStack calls st, x.2.isPair → x.1.logSz ≠ maxNumber

/-- Every store of a sequence of calls is in range. -/
def StoresInRange (cfg : Config) (isOnStack : ℕ → Addr → Bool) (calls : List (ℕ × Call)) : Prop :=
  ∀ s ∈ stores cfg isOnStack calls init, s.InRange

variable {cfg : Config} {isOnStack : ℕ → Addr → Bool} {tid inst : ℕ} {st st' : State} {ss : List Store}

/-! ### One call -/

/-- The variables of the allocation log are unchanged. -/
structure Framed (st st' : State) : Prop where
  pos : st'.memAllocEventsPos = st.memAllocEventsPos
  static : st'.logMemAlloc = st.logMemAlloc

theorem Framed.rfl : Framed st st := ⟨Eq.refl _, Eq.refl _⟩

/-- **The index of one event**, in a batch or not. -/
theorem fetchAddLogSize_lt {ts : UInt64} (h : fetchAddLogSize tid st = some (ts, st')) :
    ts.toNat < MAX_NR_EVENTS ∧ Framed st st' := by
  unfold fetchAddLogSize at h
  dsimp only at h
  split_ifs at h with _ _ hlt hlt
  all_goals
    obtain ⟨rfl, rfl⟩ := h
    exact ⟨hlt, ⟨rfl, rfl⟩⟩

theorem logEvent_inRange {mk : ℕ → Event} (h : logEvent tid mk st = some (st', ss)) :
    (∀ s ∈ ss, s.InRange) ∧ Framed st st' := by
  rw [logEvent, Option.bind_eq_bind, Option.bind_eq_some_iff] at h
  obtain ⟨⟨ts, st₁⟩, hts, h⟩ := h
  obtain ⟨rfl, rfl⟩ := h
  have ⟨hlt, hframed⟩ := fetchAddLogSize_lt hts
  exact ⟨List.forall_mem_singleton.mpr hlt, hframed⟩

theorem toNat_succ {ts : UInt64} (hts : ts ≠ maxNumber) : (ts + 1).toNat = ts.toNat + 1 := by
  have hne : ts.toNat ≠ 2 ^ 64 - 1 := fun h => hts (UInt64.toNat_inj.mp h)
  have hlt := ts.toNat_lt
  rw [UInt64.toNat_add, UInt64.toNat_one]
  omega

/-- **The indices of two events**: the first is not checked on its own. -/
theorem logPair_inRange {mk mk' : ℕ → Event} (h : logPair mk mk' st = some (st', ss)) :
    ((∀ s ∈ ss, s.InRange) ↔ st.logSz ≠ maxNumber) ∧ Framed st st' := by
  unfold logPair at h
  dsimp only at h
  split_ifs at h with hlt
  obtain ⟨rfl, rfl⟩ := h
  refine ⟨⟨fun h hmax => ?_, fun hmax => ?_⟩, ⟨rfl, rfl⟩⟩
  · have hfirst : st.logSz.toNat < MAX_NR_EVENTS := (List.forall_mem_cons.mp h).1
    rw [hmax] at hfirst
    exact absurd hfirst (by decide)
  · rw [toNat_succ hmax] at hlt
    refine List.forall_mem_cons.mpr ⟨Nat.lt_of_succ_lt hlt, List.forall_mem_singleton.mpr ?_⟩
    rw [Store.InRange, toNat_succ hmax]
    exact hlt

/-- The flags that are set are those of the settings. -/
def StaticOk (cfg : Config) (st : State) : Prop := ∀ w, (st.logMemAlloc w).getD cfg.logMem = cfg.logMem

/-- **The index of an allocation** is not checked. -/
theorem allocWrapper_inRange {w : Wrapper} {evt : MemAllocEvent} (hst : StaticOk cfg st)
    (h : allocWrapper cfg w evt st = some (st', ss)) :
    ((∀ s ∈ ss, s.InRange) ↔ (cfg.logMem → st.memAllocEventsPos.toNat < MAX_NR_MEM_EVENTS)) ∧ StaticOk cfg st' ∧
      st'.memAllocEventsPos = if cfg.logMem then st.memAllocEventsPos + 1 else st.memAllocEventsPos := by
  have hstatic : ∀ w', (Function.update st.logMemAlloc w (some cfg.logMem) w').getD cfg.logMem = cfg.logMem := by
    intro w'
    rw [Function.update_apply]
    split_ifs
    · rfl
    · exact hst w'
  unfold allocWrapper at h
  dsimp only at h
  rw [hst w] at h
  by_cases hlog : cfg.logMem
  · have ⟨henable, hmem⟩ := Bool.and_eq_true_iff.mp hlog
    rw [if_pos hlog, logMemAllocEvent, if_neg (not_not.mpr henable), if_pos hmem] at h
    obtain ⟨rfl, rfl⟩ := h
    refine ⟨?_, hstatic, (if_pos hlog).symm⟩
    rw [List.forall_mem_singleton]
    simp [hlog, Store.InRange]
  · rw [if_neg hlog] at h
    obtain ⟨rfl, rfl⟩ := h
    exact ⟨by simp [hlog], hstatic, (if_neg hlog).symm⟩

/-- A call that stores nothing where the logger is off, or on the stack. -/
theorem inRange_of_ite {p : Prop} [Decidable p] {k : Option (State × List Store)}
    (hk : k = some (st', ss) → (∀ s ∈ ss, s.InRange) ∧ Framed st st')
    (h : (if p then some (st, []) else k) = some (st', ss)) : (∀ s ∈ ss, s.InRange) ∧ Framed st st' := by
  split_ifs at h
  · obtain ⟨rfl, rfl⟩ := h
    exact ⟨fun s hs => absurd hs List.not_mem_nil, .rfl⟩
  · exact hk h

/-- A call for a batch stores nothing. -/
theorem inRange_of_batch {p : Prop} [Decidable p] {k : Option (State × List Store)}
    (hk : k = some (st', ss) → ss = [] ∧ Framed st st')
    (h : (if p then (if cfg.sample then none else some (st, [])) else k) = some (st', ss)) :
    (∀ s ∈ ss, s.InRange) ∧ Framed st st' := by
  have hnil : ss = [] ∧ Framed st st' := by
    split_ifs at h
    · obtain ⟨rfl, rfl⟩ := h
      exact ⟨rfl, .rfl⟩
    · exact hk h
  exact ⟨fun s hs => absurd (hnil.1 ▸ hs) List.not_mem_nil, hnil.2⟩

theorem inRange_of_ite_pair {mk mk' : ℕ → Event}
    (h : (if ¬ cfg.enable then some (st, []) else logPair mk mk' st) = some (st', ss)) :
    ((∀ s ∈ ss, s.InRange) ↔ (cfg.enable → st.logSz ≠ maxNumber)) ∧ Framed st st' := by
  by_cases henable : cfg.enable
  · rw [if_neg (not_not.mpr henable)] at h
    have ⟨hss, hframed⟩ := logPair_inRange h
    exact ⟨by rw [hss]; simp [henable], hframed⟩
  · rw [if_pos henable] at h
    obtain ⟨rfl, rfl⟩ := h
    exact ⟨by simp [henable], .rfl⟩

/-- **A logging function**: all it stores is in range, but for the two events of a pair. -/
theorem logCall_inRange {lc : LogCall} {onStack : Addr → Bool}
    (h : logCall cfg onStack inst tid st lc = some (st', ss)) :
    ((∀ s ∈ ss, s.InRange) ↔ (cfg.enable → (Call.log inst lc).isPair → st.logSz ≠ maxNumber)) ∧ Framed st st' := by
  have hone : (Call.log inst lc).isPair = false → ((∀ s ∈ ss, s.InRange) ∧ Framed st st') →
      ((∀ s ∈ ss, s.InRange) ↔ (cfg.enable → (Call.log inst lc).isPair → st.logSz ≠ maxNumber)) ∧ Framed st st' :=
    fun hpair hss => ⟨⟨fun _ _ h => absurd h (Bool.eq_false_iff.mp hpair), fun _ => hss.1⟩, hss.2⟩
  have hpair : (Call.log inst lc).isPair = true →
      ((∀ s ∈ ss, s.InRange) ↔ (cfg.enable → st.logSz ≠ maxNumber)) ∧ Framed st st' →
      ((∀ s ∈ ss, s.InRange) ↔ (cfg.enable → (Call.log inst lc).isPair → st.logSz ≠ maxNumber)) ∧ Framed st st' :=
    fun hpair hss => ⟨hss.1.trans (imp_congr_right fun _ => ⟨fun h _ => h, fun h => h hpair⟩), hss.2⟩
  cases lc with
  | startBatch nr =>
    refine hone rfl (inRange_of_batch (fun h => ?_) h)
    split_ifs at h
    obtain ⟨rfl, rfl⟩ := h
    exact ⟨rfl, rfl, rfl⟩
  | startBatchFor addrs =>
    refine hone rfl (inRange_of_batch (fun h => ?_) h)
    split_ifs at h
    all_goals
      obtain ⟨rfl, rfl⟩ := h
      exact ⟨rfl, rfl, rfl⟩
  | endBatch =>
    refine hone rfl (inRange_of_batch (fun h => ?_) h)
    split_ifs at h
    obtain ⟨rfl, rfl⟩ := h
    exact ⟨rfl, rfl, rfl⟩
  | logVarAccessEvent ty addr => exact hone rfl (inRange_of_ite logEvent_inRange h)
  | logArrayAccessEvent ty addr len => exact hone rfl (inRange_of_ite logEvent_inRange h)
  | logSyncOpEvent ty addr => exact hone rfl (inRange_of_ite logEvent_inRange h)
  | logThreadCreateEvent remoteTid =>
    refine hone rfl (inRange_of_ite (fun h => ?_) h)
    split_ifs at h
    exact logEvent_inRange h
  | logThreadJoinEvent remoteTid => exact hone rfl (inRange_of_ite logEvent_inRange h)
  | logCondWaitEvent mutexAddr condAddr => exact hpair rfl (inRange_of_ite_pair h)
  | logCondAwakeEvent mutexAddr condAddr => exact hpair rfl (inRange_of_ite_pair h)

/-- **One call.** -/
theorem step_inRange {c : Call} (hst : StaticOk cfg st) (h : step cfg isOnStack tid st c = some (st', ss)) :
    ((∀ s ∈ ss, s.InRange) ↔ (cfg.logMem → c.isAlloc → st.memAllocEventsPos.toNat < MAX_NR_MEM_EVENTS) ∧
      (cfg.enable → c.isPair → st.logSz ≠ maxNumber)) ∧ StaticOk cfg st' ∧
      st'.memAllocEventsPos = if cfg.logMem ∧ c.isAlloc then st.memAllocEventsPos + 1 else st.memAllocEventsPos := by
  have hframe : Framed st st' → StaticOk cfg st' := fun hf w => by rw [hf.static]; exact hst w
  cases c with
  | log inst lc =>
    have ⟨hss, hf⟩ := logCall_inRange h
    exact ⟨by simp [hss, Call.isAlloc], hframe hf, by simp [hf.pos, Call.isAlloc]⟩
  | logFuncCallEvent inst =>
    have ⟨hss, hf⟩ := inRange_of_ite logEvent_inRange h
    exact ⟨iff_of_true hss (by simp [Call.isAlloc, Call.isPair]), hframe hf, by simp [hf.pos, Call.isAlloc]⟩
  | alloc w evt =>
    have ⟨hss, hst', hpos⟩ := allocWrapper_inRange hst h
    exact ⟨by simp [hss, Call.isAlloc, Call.isPair], hst', by simp [hpos, Call.isAlloc]⟩

/-! ### A run -/

/-- **The stores of a run**, from any state with room for the allocations so far. -/
theorem stores_inRange_iff {calls : List (ℕ × Call)} (hst : StaticOk cfg st)
    (hpos : st.memAllocEventsPos.toNat ≤ MAX_NR_MEM_EVENTS) : (∀ s ∈ stores cfg isOnStack calls st, s.InRange) ↔
      AllocsFit cfg isOnStack calls st ∧ NoWrap cfg isOnStack calls st := by
  induction calls generalizing st with
  | nil => simp [stores, returned, AllocsFit, NoWrap, hpos]
  | cons call calls ih =>
    obtain ⟨tid, c⟩ := call
    match hstep : step cfg isOnStack tid st c with
    | none => simp [stores, returned, AllocsFit, NoWrap, hstep, hpos]
    | some (st', ss) =>
      have ⟨hss, hst', hpos'⟩ := step_inRange hst hstep
      have hstores : stores cfg isOnStack ((tid, c) :: calls) st = ss ++ stores cfg isOnStack calls st' := by
        rw [stores, hstep]
      have hreturned : returned cfg isOnStack ((tid, c) :: calls) st = (st, c) :: returned cfg isOnStack calls st' := by
        rw [returned, hstep]
      have hwrap : NoWrap cfg isOnStack ((tid, c) :: calls) st ↔
          (cfg.enable → c.isPair → st.logSz ≠ maxNumber) ∧ NoWrap cfg isOnStack calls st' := by
        rw [NoWrap, NoWrap, hreturned, ← imp_and]
        exact imp_congr_right fun _ => List.forall_mem_cons
      rw [hstores, List.forall_mem_append, hss, hwrap]
      by_cases halloc : cfg.logMem ∧ c.isAlloc
      · rw [if_pos halloc] at hpos'
        have hcount : AllocsFit cfg isOnStack ((tid, c) :: calls) st ↔ st.memAllocEventsPos.toNat + 1 +
            (returned cfg isOnStack calls st').countP (·.2.isAlloc) ≤ MAX_NR_MEM_EVENTS := by
          rw [AllocsFit, hreturned, List.countP_cons, if_pos halloc.2, forall_prop_of_true halloc.1, Nat.add_right_comm,
            Nat.add_assoc]
        by_cases hlt : st.memAllocEventsPos.toNat < MAX_NR_MEM_EVENTS
        · have hsucc : st'.memAllocEventsPos.toNat = st.memAllocEventsPos.toNat + 1 := by
            refine hpos' ▸ toNat_succ fun hmax => ?_
            rw [hmax] at hlt
            exact absurd hlt (by decide)
          have hfit : AllocsFit cfg isOnStack ((tid, c) :: calls) st ↔ AllocsFit cfg isOnStack calls st' := by
            rw [hcount, AllocsFit, hsucc, forall_prop_of_true halloc.1]
          rw [ih hst' (hsucc ▸ hlt), hfit, and_iff_right fun _ _ => hlt]
          exact and_left_comm
        · refine iff_of_false (fun h => hlt (h.1.1 halloc.1 halloc.2)) fun h => ?_
          have hle := hcount.mp h.1
          omega
      · rw [if_neg halloc] at hpos'
        have hfit : AllocsFit cfg isOnStack ((tid, c) :: calls) st ↔ AllocsFit cfg isOnStack calls st' := by
          rw [AllocsFit, AllocsFit, hreturned, hpos', List.countP_cons]
          apply imp_congr_right
          intro hlog
          rw [if_neg fun hc => halloc ⟨hlog, hc⟩, add_zero]
        have hroom : cfg.logMem → c.isAlloc → st.memAllocEventsPos.toNat < MAX_NR_MEM_EVENTS :=
          fun h h' => absurd ⟨h, h'⟩ halloc
        rw [ih hst' (by rw [hpos']; exact hpos), hfit, and_iff_right hroom]
        exact and_left_comm

/-- **Every store is in range exactly where no more allocations are logged than fit**, and no two events are
logged where the second index is the first of the buffer again. -/
theorem storesInRange_iff (cfg : Config) (isOnStack : ℕ → Addr → Bool) (calls : List (ℕ × Call)) :
    StoresInRange cfg isOnStack calls ↔ AllocsFit cfg isOnStack calls init ∧ NoWrap cfg isOnStack calls init :=
  stores_inRange_iff (fun _ => rfl) (Nat.zero_le _)

/-- A wrapper returns. -/
theorem step_alloc (hlog : cfg.logMem) (w : Wrapper) (evt : MemAllocEvent) :
    ∃ st' ss, step cfg isOnStack tid st (.alloc w evt) = some (st', ss) := by
  have ⟨henable, hmem⟩ := Bool.and_eq_true_iff.mp hlog
  rw [step, allocWrapper, logMemAllocEvent, if_neg (not_not.mpr henable), if_pos hmem]
  dsimp only
  split_ifs
  · exact ⟨_, _, rfl⟩
  · exact ⟨_, _, rfl⟩

theorem countP_returned_replicate (hlog : cfg.logMem) (w : Wrapper) (evt : MemAllocEvent) (n : ℕ) :
    (returned cfg isOnStack (List.replicate n (tid, .alloc w evt)) st).countP (·.2.isAlloc) = n := by
  induction n generalizing st with
  | zero => rfl
  | succ n ih =>
    obtain ⟨st', ss, hstep⟩ : ∃ st' ss, step cfg isOnStack tid st (.alloc w evt) = some (st', ss) :=
      step_alloc hlog w evt
    rw [List.replicate_succ, returned, hstep, List.countP_cons_of_pos rfl, ih]

/-- One call of `malloc` more than fit. -/
theorem not_storesInRange_malloc : ¬ StoresInRange ⟨⟨true, false, false⟩, true⟩ (fun _ _ => false)
    (List.replicate (MAX_NR_MEM_EVENTS + 1) (0, .alloc .malloc ⟨4096, 16, []⟩)) := by
  intro h
  have hfit := ((stores_inRange_iff (fun _ => rfl) (Nat.zero_le _)).mp h).1 rfl
  rw [countP_returned_replicate rfl] at hfit
  exact Nat.not_succ_le_self _ ((Nat.le_add_left _ _).trans hfit)

end LogBuffers

end Schnauzer
