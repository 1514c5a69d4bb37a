import Schnauzer.Lib.Liveness
import Schnauzer.Scs.ScScheduler
import Schnauzer.Sched.ScsImpl

/-!
# Creating a thread

`pthread_create_wrapper` of `runtime/core/Interface` with the two hooks of `ScScheduler`, for one
caller: the batch that the first hook opens, the call of `pthread_create`, which may fail, the loop
that waits for the pack, and the hook that fills and closes the batch. In between the supervisor
may reset the money, other threads may pay and log, and the new thread, if there is one, fills
its pack.

The caller is between two wrappers, so that it has no batch open. An `assert` that fails
stops everything.

## What is proved

* `reverts_iff` — the wrapper meets its contract if and only if `pthread_create` succeeds (and the
  logger can log at all).
-/

namespace Schnauzer

open Liveness

/-- A call of the wrapper. -/
structure CreateCall where
  /-- The settings of the logger. -/
  log : LogConfig
  /-- Those of the scheduler. -/
  sched : SchedConfig
  /-- The caller. -/
  t : ℕ
  /-- `inst_id`. -/
  inst : ℕ
  /-- What `pthread_create` returns. -/
  code : ℕ
  /-- `need_instrument` in front of the call. -/
  hookBefore : Bool
  /-- And behind it; the program only stops being instrumented. -/
  hookAfter : Bool
  hookAfter_le : hookAfter → hookBefore

/-- Where the caller is. -/
inductive CreatePc where
  /-- In front of `beforeSyncOperation`. -/
  | gate
  /-- In front of `startBatch`. -/
  | opening
  /-- In front of `pthread_create`. -/
  | call
  /-- In the loop. -/
  | spin
  /-- In front of `afterSyncOperation`. -/
  | leave
  /-- In front of `logThreadCreateEvent`. -/
  | record
  /-- In front of its store. -/
  | store
  /-- In front of `endBatch`. -/
  | closing
  /-- Back in the program. -/
  | returned (ret : ℕ)
  deriving DecidableEq

/-- The call that a hook makes there; `pack` is the tid of the new thread. -/
def CreatePc.stmt (pack : ℕ) : CreatePc → Option Stmt
  | .gate => some (.scs .beforeSyncOperation)
  | .opening => some (.log (.startBatch 1))
  | .leave => some (.scs .afterSyncOperation)
  | .record => some (.log (.logThreadCreateEvent pack))
  | .closing => some (.log .endBatch)
  | _ => none

theorem stmts_before (pack : ℕ) :
    [CreatePc.gate, .opening].filterMap (CreatePc.stmt pack) = ScScheduler.beforePthreadCreate := rfl

theorem stmts_after (pack : ℕ) :
    [CreatePc.leave, .record, .store, .closing].filterMap (CreatePc.stmt pack) =
      ScScheduler.afterPthreadCreate pack := rfl

/-- The caller and what it shares. -/
structure Creator where
  /-- The scheduler. -/
  sched : Sched
  /-- The `last_epoch` of `blockCurrThread`, while it waits there. -/
  waiting : Option ℕ
  /-- The log. -/
  log : LogState
  /-- Its part of it. -/
  loc : LogLocal
  /-- `pack->tid_`. -/
  pack : ℕ
  /-- Where it is. -/
  pc : CreatePc
  /-- The slot that its batch has reserved; nothing reads it. -/
  slot : Option ℕ

namespace Creator

/-- In front of the wrapper. -/
structure Start (c : CreateCall) (s : Creator) : Prop where
  waiting : s.waiting = none
  aborted : s.log.aborted = none
  noBatch : Logger.noBatch s.loc
  pend : s.loc.pend = []
  pack : s.pack = UNDEFINED_TID
  pc : s.pc = if c.hookBefore then .gate else .call
  slot : s.slot = none

/-- The end of a call into the logger. -/
def logged (s : Creator) (next : CreatePc) (r : LogState × LogLocal) : Creator :=
  { s with log := r.1, loc := r.2, pc := if r.1.aborted = none then next else s.pc }

/-- The next step of the caller. -/
def advance (c : CreateCall) (s : Creator) : Creator :=
  match s.pc with
  | .gate =>
    match s.sched.gate c.t s.waiting with
    | .wait => s
    | .block => { s with waiting := some s.sched.epoch }
    | .pass => { s with sched := s.sched.payAndEnter c.t, waiting := none, pc := .opening }
  | .opening =>
    { s.logged .call (Logger.startBatch c.log 1 s.log s.loc) with
      slot := if c.log.enable then some s.log.logSz else none }
  | .call => { s with pc := .spin }
  | .spin =>
    if s.pack = UNDEFINED_TID then s
    else { s with pc := if c.hookAfter then .leave else .returned c.code }
  | .leave => { s with sched := s.sched.afterSyncOperation c.t, pc := .record }
  | .record =>
    s.logged .store
      (Logger.exec c.log (fun _ => false) c.inst c.t s.log s.loc (.logThreadCreateEvent s.pack))
  | .store => s.logged .closing ((Logger.store s.log s.loc).getD (s.log, s.loc))
  | .closing => s.logged (.returned c.code) (Logger.endBatch c.log s.log s.loc)
  | .returned _ => s

/-- It takes it while the program runs. -/
def run (c : CreateCall) (s : Creator) : Creator := if s.log.aborted = none then advance c s else s

/-- Who takes a step. -/
inductive Label where
  | caller
  | supervisor
  | others
  | newThread

/-- A step. -/
inductive Next (c : CreateCall) (s : Creator) : Label → Creator → Prop where
  /-- The caller goes on. -/
  | caller : Next c s .caller (run c s)
  /-- A reset. -/
  | supervise {drawn : ℕ → ℕ} {sched : Sched} (hrun : s.log.aborted = none)
      (h : s.sched.supervise c.sched drawn = some sched) : Next c s .supervisor { s with sched := sched }
  /-- Another thread pays, or leaves a synchronisation. -/
  | pay {u m : ℕ} (hrun : s.log.aborted = none) (hu : u ≠ c.t) :
      Next c s .others { s with sched := s.sched.setMoney u m }
  /-- Other threads log. -/
  | log {k : ℕ} {events : ℕ → Option Event} (hrun : s.log.aborted = none)
      (hslot : ∀ i, s.slot = some i → events i = s.log.events i) :
      Next c s .others { s with log := { s.log with logSz := s.log.logSz + k, events := events } }
  /-- The new thread fills its pack. -/
  | fill {tid : ℕ} (hrun : s.log.aborted = none) (hcode : c.code = 0) (hpc : s.pc = .spin)
      (hpack : s.pack = UNDEFINED_TID) (htid : tid ≠ UNDEFINED_TID) :
      Next c s .newThread { s with pack := tid }
  /-- Nothing follows an `assert` that has failed. -/
  | stopped {l : Label} (h : s.log.aborted ≠ none) : Next c s l s

/-- A run in which the caller and the supervisor take steps again and again, and a thread that has been
created takes its first ones. -/
structure Execution (c : CreateCall) where
  state : ℕ → Creator
  label : ℕ → Label
  start : Start c (state 0)
  next : ∀ n, Next c (state n) (label n) (state (n + 1))
  caller : Recurs fun n => label n = .caller
  supervisor : Recurs fun n => label n = .supervisor
  newThread : c.code = 0 → ∀ n, (state n).pc = .spin → (state n).log.aborted = none →
    ∃ m, n ≤ m ∧ (state m).pack ≠ UNDEFINED_TID

/-- What a call that fails has to leave. -/
structure Undone (c : CreateCall) (s : Creator) : Prop where
  /-- No event of a creation in its slot. -/
  event : ∀ i evt, s.slot = some i → s.log.events i = some evt → evt.opTy ≠ .create
  /-- No batch. -/
  batch : Logger.noBatch s.loc
  /-- No slot without an event. -/
  filled : ∀ i, s.slot = some i → s.log.events i ≠ none
  /-- No marker. -/
  marker : MoneyMngr.isMoneyInSync (s.sched.money c.t) = false

/-- The contract: the wrapper returns the code and, when it is an error, leaves nothing behind. -/
def Reverts {c : CreateCall} (e : Execution c) : Prop :=
  ∃ n, (e.state n).pc = .returned c.code ∧ (c.code ≠ 0 → Undone c (e.state n))

/-- No `assert` of the logger fails: with the logger off, sampling is off too, and with the logger on the
log is not full when the batch is opened. -/
structure Accepts {c : CreateCall} (e : Execution c) : Prop where
  sample : c.hookBefore → c.log.enable = false → c.log.sample = false
  room : c.hookAfter → c.log.enable → ∀ n, (e.state n).pc = .opening →
    (e.state n).log.logSz < MAX_NR_EVENTS

/-! ### The caller and its batch -/

/-- How far the caller has to go. -/
def rank (s : Creator) : ℕ :=
  match s.pc with
  | .gate => 8
  | .opening => 7
  | .call => 6
  | .spin => 5
  | .leave => 4
  | .record => 3
  | .store => 2
  | .closing => 1
  | .returned _ => 0

/-- The batch is open, and its event is missing. -/
structure Ready (c : CreateCall) (s : Creator) : Prop where
  pend : s.loc.pend = []
  sample : c.hookBefore → c.log.enable = false → c.log.sample = false
  batch : c.hookBefore → c.log.enable → s.slot = some s.loc.batchId ∧ s.loc.batchPos = 0 ∧ s.loc.batchSz = 1

/-- The batch is full. -/
structure Full (c : CreateCall) (s : Creator) : Prop where
  hookAfter : c.hookAfter
  sample : c.hookBefore → c.log.enable = false → c.log.sample = false
  batch : c.log.enable → s.loc.batchPos = s.loc.batchSz ∧ ∃ i, s.slot = some i ∧ i < MAX_NR_EVENTS

/-- What holds of the batch where the caller is. -/
def Shape (c : CreateCall) (s : Creator) : Prop :=
  match s.pc with
  | .gate | .opening => c.hookBefore ∧ Logger.noBatch s.loc ∧ s.loc.pend = []
  | .call | .spin => Ready c s
  | .leave | .record => c.hookAfter ∧ Ready c s
  | .store | .closing => Full c s
  | .returned r => r = c.code ∧ (c.hookBefore → c.log.enable = false → c.log.sample = false) ∧
      (c.hookAfter → c.log.enable → ∃ i, s.slot = some i ∧ i < MAX_NR_EVENTS)

variable {c : CreateCall} {s s' : Creator} {l : Label}

theorem Start.shape (h : Start c s) : Shape c s := by
  have hpc := h.pc
  unfold Shape
  split_ifs at hpc with hb
  · rw [hpc]
    exact ⟨hb, h.noBatch, h.pend⟩
  · rw [hpc]
    exact ⟨h.pend, fun hb' => absurd hb' hb, fun hb' => absurd hb' hb⟩

/-- Opening the batch. -/
theorem shape_opening (hrun : s.log.aborted = none) (hpc : s.pc = .opening) (h : Shape c s) :
    (run c s).log.aborted = none → (run c s).pc = .call ∧ Ready c (run c s) := by
  simp only [Shape, hpc] at h
  obtain ⟨hb, hno, hpend⟩ := h
  simp only [run, hrun, if_true, advance, hpc, logged]
  intro hrun'
  rw [if_pos hrun']
  refine ⟨rfl, ?_⟩
  cases hen : c.log.enable with
  | false =>
    simp only [Logger.startBatch, hen, Bool.false_eq_true, not_false_eq_true, if_true] at hrun' ⊢
    refine ⟨hpend, fun _ _ => ?_, fun _ he => absurd he (by simp [hen])⟩
    by_contra hs
    rw [Bool.not_eq_false] at hs
    simp [hs, Logger.abort] at hrun'
  | true =>
    simp only [Logger.startBatch, hen, hno, not_true_eq_false, if_false, if_true] at hrun' ⊢
    exact ⟨hpend, fun _ he => absurd he (by simp [hen]), fun _ _ => ⟨rfl, rfl, rfl⟩⟩

/-- Recording the event. -/
theorem shape_record (hrun : s.log.aborted = none) (hpc : s.pc = .record) (h : Shape c s) :
    (run c s).log.aborted = none → (run c s).pc = .store ∧ Full c (run c s) := by
  simp only [Shape, hpc] at h
  obtain ⟨ha, hready⟩ := h
  simp only [run, hrun, if_true, advance, hpc, logged]
  intro hrun'
  rw [if_pos hrun']
  refine ⟨rfl, ha, hready.sample, fun hen => ?_⟩
  obtain ⟨hslot, hpos, hsz⟩ := hready.batch (c.hookAfter_le ha) hen
  simp only [Logger.exec, hen, not_true_eq_false, if_false] at hrun' ⊢
  split_ifs at hrun' ⊢ with hin
  · have hfull : s.loc.batchPos < s.loc.batchSz := by omega
    simp only [Logger.logEvent, hin, hfull, if_true] at hrun' ⊢
    split_ifs at hrun' ⊢ with hlt
    · refine ⟨by simp [hpos, hsz], s.loc.batchId, hslot, ?_⟩
      simpa [hpos] using hlt
    · cases hrun'
  · cases hrun'

/-- Storing it. -/
theorem shape_store (hrun : s.log.aborted = none) (hpc : s.pc = .store) (h : Shape c s) :
    (run c s).log.aborted = none ∧ (run c s).pc = .closing ∧ Full c (run c s) := by
  simp only [Shape, hpc] at h
  simp only [run, hrun, if_true, advance, hpc, logged]
  unfold Logger.store
  cases hp : s.loc.pend with
  | nil =>
    simp only [Option.getD_none, hrun, if_true]
    exact ⟨trivial, trivial, h.hookAfter, h.sample, h.batch⟩
  | cons x pend =>
    simp only [Option.getD_some, hrun, if_true]
    exact ⟨trivial, trivial, h.hookAfter, h.sample, h.batch⟩

/-- Closing the batch. -/
theorem shape_closing (hrun : s.log.aborted = none) (hpc : s.pc = .closing) (h : Shape c s) :
    (run c s).log.aborted = none ∧ (run c s).pc = .returned c.code ∧ (run c s).slot = s.slot := by
  simp only [Shape, hpc] at h
  have hend : (Logger.endBatch c.log s.log s.loc).1.aborted = none := by
    cases hen : c.log.enable with
    | false => simp [Logger.endBatch, hen, h.sample (c.hookAfter_le h.hookAfter) hen, hrun]
    | true => simp [Logger.endBatch, hen, (h.batch hen).1, hrun]
  simp only [run, hrun, if_true, advance, hpc, logged, hend]
  exact ⟨trivial, trivial, trivial⟩

/-- A step of the caller. -/
theorem shape_run (hrun : s.log.aborted = none) (h : Shape c s) (hrun' : (run c s).log.aborted = none) :
    Shape c (run c s) := by
  cases hpc : s.pc with
  | opening =>
    obtain ⟨hpc', hready⟩ := shape_opening hrun hpc h hrun'
    simp only [Shape, hpc']
    exact hready
  | record =>
    obtain ⟨hpc', hfull⟩ := shape_record hrun hpc h hrun'
    simp only [Shape, hpc']
    exact hfull
  | store =>
    obtain ⟨-, hpc', hfull⟩ := shape_store hrun hpc h
    simp only [Shape, hpc']
    exact hfull
  | closing =>
    obtain ⟨-, hpc', hslot⟩ := shape_closing hrun hpc h
    simp only [Shape, hpc] at h
    simp only [Shape, hpc', hslot]
    exact ⟨trivial, h.sample, fun _ hen => (h.batch hen).2⟩
  | gate =>
    simp only [Shape, hpc] at h
    simp only [run, hrun, if_true, advance, hpc]
    split
    · simpa [Shape, hpc] using h
    · simpa [Shape, hpc] using h
    · simpa [Shape] using h
  | call =>
    simp only [Shape, hpc] at h
    simp only [run, hrun, if_true, advance, hpc]
    exact ⟨h.pend, h.sample, h.batch⟩
  | spin =>
    simp only [Shape, hpc] at h
    simp only [run, hrun, if_true, advance, hpc]
    split_ifs with hp ha
    · simpa [Shape, hpc] using h
    · exact ⟨ha, h.pend, h.sample, h.batch⟩
    · exact ⟨rfl, h.sample, fun ha' => absurd ha' ha⟩
  | leave =>
    simp only [Shape, hpc] at h
    simp only [run, hrun, if_true, advance, hpc]
    exact ⟨h.1, h.2.pend, h.2.sample, h.2.batch⟩
  | returned r =>
    simp only [run, hrun, if_true, advance, hpc]
    exact h

/-- The others leave the caller where it is. -/
theorem Next.frame (h : Next c s l s') (hl : l ≠ .caller) :
    s'.pc = s.pc ∧ s'.loc = s.loc ∧ s'.slot = s.slot ∧ s'.waiting = s.waiting ∧
      s'.log.aborted = s.log.aborted := by
  cases h with
  | caller => exact absurd rfl hl
  | supervise | pay | log | fill | stopped => exact ⟨rfl, rfl, rfl, rfl, rfl⟩

theorem shape_next (h : Next c s l s') (hrun : s.log.aborted = none) (hs : Shape c s)
    (hrun' : s'.log.aborted = none) : Shape c s' := by
  by_cases hl : l = .caller
  · subst hl
    cases h with
    | caller => exact shape_run hrun hs hrun'
    | stopped => exact hs
  · obtain ⟨hpc, hloc, hslot, -, -⟩ := h.frame hl
    unfold Shape at hs ⊢
    rw [hpc]
    cases hp : s.pc with
    | gate | opening =>
      rw [hp] at hs
      rw [hloc]
      exact hs
    | call | spin =>
      rw [hp] at hs
      exact ⟨hloc ▸ hs.pend, hs.sample, by rw [hloc, hslot]; exact hs.batch⟩
    | leave | record =>
      rw [hp] at hs
      exact ⟨hs.1, hloc ▸ hs.2.pend, hs.2.sample, by rw [hloc, hslot]; exact hs.2.batch⟩
    | store | closing =>
      rw [hp] at hs
      exact ⟨hs.hookAfter, hs.sample, by rw [hloc, hslot]; exact hs.batch⟩
    | returned r =>
      rw [hp] at hs
      rw [hslot]
      exact hs

/-! ### What a step cannot do -/

theorem Next.of_aborted (h : Next c s l s') (ha : s.log.aborted ≠ none) : s' = s := by
  cases h with
  | caller => exact if_neg ha
  | stopped => rfl
  | supervise hrun | pay hrun | log hrun | fill hrun => exact absurd hrun ha

theorem rank_logged_le {next : CreatePc} {r : LogState × LogLocal}
    (h : rank { s with pc := next } ≤ rank s) : rank (s.logged next r) ≤ rank s := by
  unfold logged
  split_ifs
  · exact h
  · exact le_rfl

theorem rank_advance_le (c : CreateCall) (s : Creator) : rank (advance c s) ≤ rank s := by
  unfold advance
  cases hpc : s.pc with
  | gate =>
    dsimp only
    split <;> simp [rank, hpc]
  | spin =>
    dsimp only
    split_ifs <;> simp [rank, hpc]
  | opening => exact rank_logged_le (s := s) (by simp [rank, hpc])
  | record => exact rank_logged_le (by simp [rank, hpc])
  | store => exact rank_logged_le (by simp [rank, hpc])
  | closing => exact rank_logged_le (by simp [rank, hpc])
  | call => simp [rank, hpc]
  | leave => simp [rank, hpc]
  | returned r => exact le_rfl

/-- Away from the gate, the loop and the end every step that does not stop the program counts. -/
theorem rank_advance_lt (hrun : (advance c s).log.aborted = none) (hgate : s.pc ≠ .gate)
    (hspin : s.pc ≠ .spin) (hret : ∀ r, s.pc ≠ .returned r) : rank (advance c s) < rank s := by
  have hlogged : ∀ {next : CreatePc} {r : LogState × LogLocal}, r.1.aborted = none →
      (s.logged next r).pc = next := fun h => if_pos h
  cases hpc : s.pc with
  | gate => exact absurd hpc hgate
  | spin => exact absurd hpc hspin
  | returned r => exact absurd hpc (hret r)
  | opening | record | store | closing =>
    simp only [advance, hpc] at hrun ⊢
    simp [rank, hpc, hlogged hrun]
  | call | leave => simp [rank, hpc, advance]

theorem Next.rank_le (h : Next c s l s') : rank s' ≤ rank s := by
  by_cases hl : l = .caller
  · subst hl
    cases h with
    | caller =>
      unfold run
      split_ifs
      · exact rank_advance_le c s
      · exact le_rfl
    | stopped => exact le_rfl
  · unfold rank
    rw [(h.frame hl).1]

theorem logSz_advance_le (c : CreateCall) (s : Creator) : s.log.logSz ≤ (advance c s).log.logSz := by
  have hopen : s.log.logSz ≤ (Logger.startBatch c.log 1 s.log s.loc).1.logSz := by
    unfold Logger.startBatch
    split_ifs <;> simp [Logger.abort, Logger.openBatch, Logger.fetchAdd]
  have hrecord : s.log.logSz ≤
      (Logger.exec c.log (fun _ => false) c.inst c.t s.log s.loc (.logThreadCreateEvent s.pack)).1.logSz := by
    unfold Logger.exec Logger.logEvent
    dsimp only
    split_ifs <;> simp [Logger.abort]
  have hstore : s.log.logSz ≤ ((Logger.store s.log s.loc).getD (s.log, s.loc)).1.logSz := by
    unfold Logger.store
    split <;> exact le_rfl
  have hclose : s.log.logSz ≤ (Logger.endBatch c.log s.log s.loc).1.logSz := by
    unfold Logger.endBatch
    split_ifs <;> exact le_rfl
  unfold advance
  cases hpc : s.pc with
  | gate =>
    dsimp only
    split <;> exact le_rfl
  | spin =>
    dsimp only
    split_ifs <;> exact le_rfl
  | opening => exact hopen
  | record => exact hrecord
  | store => exact hstore
  | closing => exact hclose
  | call | leave | returned => exact le_rfl

theorem Next.logSz_le (h : Next c s l s') : s.log.logSz ≤ s'.log.logSz := by
  cases h with
  | caller =>
    unfold run
    split_ifs
    · exact logSz_advance_le c s
    · exact le_rfl
  | log => exact Nat.le_add_right ..
  | supervise | pay | fill | stopped => exact le_rfl

theorem advance_slot (h : s.pc ≠ .opening) : (advance c s).slot = s.slot := by
  unfold advance
  cases hpc : s.pc with
  | opening => exact absurd hpc h
  | gate =>
    dsimp only
    split <;> rfl
  | spin =>
    dsimp only
    split_ifs <;> rfl
  | call | leave | record | store | closing | returned => rfl

/-- The batch is opened, or the program stops. -/
theorem advance_opening (hrun : s.log.aborted = none) (hpc : s.pc = .opening) : (advance c s).pc = .call ∨
    (advance c s).log.aborted ≠ none ∧ (advance c s).log.logSz = s.log.logSz := by
  unfold advance
  rw [hpc]
  dsimp only [logged]
  unfold Logger.startBatch
  split_ifs <;> simp_all [Logger.abort, Logger.openBatch, Logger.fetchAdd]

/-! ### Executions -/

variable (e : Execution c)

theorem Execution.rank_le {n m : ℕ} (h : n ≤ m) : rank (e.state m) ≤ rank (e.state n) :=
  ge_of_steps (fun n => (e.next n).rank_le) h

theorem Execution.logSz_le {n m : ℕ} (h : n ≤ m) : (e.state n).log.logSz ≤ (e.state m).log.logSz :=
  le_of_steps (f := fun s : Creator => s.log.logSz) (fun n => (e.next n).logSz_le) h

/-- An `assert` that has failed stops the caller where it is. -/
theorem Execution.state_of_aborted {n m : ℕ} (h : n ≤ m) (ha : (e.state n).log.aborted ≠ none) :
    e.state m = e.state n := by
  induction m, h using Nat.le_induction with
  | base => rfl
  | succ m _ ih => exact ((e.next m).of_aborted (ih ▸ ha)).trans ih

/-- A step of the caller while the program runs. -/
theorem Execution.state_succ {n : ℕ} (ha : (e.state n).log.aborted = none) (hl : e.label n = .caller) :
    e.state (n + 1) = advance c (e.state n) := by
  have hnext := e.next n
  rw [hl] at hnext
  generalize e.state (n + 1) = s' at hnext
  cases hnext with
  | caller => exact if_pos ha
  | stopped hstop => exact absurd ha hstop

/-- The slot of the batch is the size of the log when it was opened. -/
theorem Execution.exists_opening {n i : ℕ} (h : (e.state n).slot = some i) :
    (∃ k, (e.state k).pc = .opening ∧ (e.state k).log.logSz = i) ∧
      ∀ m, (e.state m).pc = .opening → (e.state m).log.logSz ≤ i := by
  induction n with
  | zero =>
    rw [e.start.slot] at h
    cases h
  | succ n ih =>
    by_cases ha : (e.state n).log.aborted = none
    swap
    · rw [e.state_of_aborted (Nat.le_succ n) ha] at h
      exact ih h
    by_cases hl : e.label n = .caller
    swap
    · rw [((e.next n).frame hl).2.2.1] at h
      exact ih h
    have hstate := e.state_succ ha hl
    by_cases hpc : (e.state n).pc = .opening
    swap
    · rw [hstate, advance_slot hpc] at h
      exact ih h
    have hi : (e.state n).log.logSz = i := by
      rw [hstate, advance, hpc] at h
      dsimp only at h
      split_ifs at h
      exact Option.some.inj h
    refine ⟨⟨n, hpc, hi⟩, fun m hm => ?_⟩
    by_cases hmn : m ≤ n
    · exact (e.logSz_le hmn).trans hi.le
    · -- the caller is still there: the program has stopped
      have hle : n + 1 ≤ m := by omega
      rcases advance_opening (c := c) ha hpc with hcall | ⟨hstop, hsame⟩
      · have hrank := e.rank_le hle
        rw [hstate] at hrank
        simp [rank, hm, hcall] at hrank
      · rw [← hstate] at hstop hsame
        rw [e.state_of_aborted hle hstop, hsame]
        exact hi.le

/-- While the program runs the batch is as it should be. -/
theorem Execution.shape (n : ℕ) (ha : (e.state n).log.aborted = none) : Shape c (e.state n) := by
  induction n with
  | zero => exact e.start.shape
  | succ n ih =>
    have ha' : (e.state n).log.aborted = none := by
      by_contra hstop
      rw [e.state_of_aborted (Nat.le_succ n) hstop] at ha
      exact hstop ha
    exact shape_next (e.next n) ha' (ih ha') ha

/-- Opening a batch when the logger is on, or sampling off. -/
theorem advance_opening_ok (hrun : s.log.aborted = none) (hpc : s.pc = .opening) (h : Shape c s)
    (hsample : c.log.enable = false → c.log.sample = false) : (advance c s).log.aborted = none := by
  simp only [Shape, hpc] at h
  simp only [advance, hpc, logged]
  cases hen : c.log.enable with
  | false => simp [Logger.startBatch, hen, hsample hen, hrun]
  | true => simp [Logger.startBatch, hen, h.2.1, Logger.openBatch, Logger.fetchAdd, hrun]

/-- Recording an event in a slot of the log. -/
theorem advance_record_ok (hrun : s.log.aborted = none) (hpc : s.pc = .record) (h : Shape c s)
    (hroom : c.log.enable → ∀ i, s.slot = some i → i < MAX_NR_EVENTS) :
    (advance c s).log.aborted = none := by
  simp only [Shape, hpc] at h
  obtain ⟨ha, hready⟩ := h
  simp only [advance, hpc, logged, Logger.exec]
  split_ifs with hen hin
  · obtain ⟨hslot, hpos, hsz⟩ := hready.batch (c.hookAfter_le ha) hen
    have hlt := hroom hen _ hslot
    simp [Logger.logEvent, hin, hpos, hsz, hlt, hrun]
  · obtain ⟨hslot, -⟩ := hready.batch (c.hookAfter_le ha) hen
    have hlt := hroom hen _ hslot
    have hmax : MAX_NR_EVENTS ≤ MAX_NUMBER := by decide
    refine absurd (decide_eq_true ?_) hin
    omega
  · exact hrun

/-- Under the condition no `assert` fails. -/
theorem Execution.aborted_eq_none (h : Accepts e) (n : ℕ) : (e.state n).log.aborted = none := by
  induction n with
  | zero => exact e.start.aborted
  | succ n ih =>
    by_cases hl : e.label n = .caller
    swap
    · exact ((e.next n).frame hl).2.2.2.2.trans ih
    rw [e.state_succ ih hl]
    have hshape := e.shape n ih
    cases hpc : (e.state n).pc with
    | opening =>
      refine advance_opening_ok ih hpc hshape (h.sample ?_)
      simp only [Shape, hpc] at hshape
      exact hshape.1
    | record =>
      apply advance_record_ok ih hpc hshape
      intro hen i hi
      simp only [Shape, hpc] at hshape
      obtain ⟨⟨k, hk, rfl⟩, -⟩ := e.exists_opening hi
      exact h.room hshape.1 hen k hk
    | store =>
      have hstore := (shape_store ih hpc hshape).1
      rwa [run, if_pos ih] at hstore
    | closing =>
      have hclose := (shape_closing ih hpc hshape).1
      rwa [run, if_pos ih] at hclose
    | gate =>
      simp only [advance, hpc]
      split <;> exact ih
    | spin =>
      simp only [advance, hpc]
      split_ifs <;> exact ih
    | call | leave | returned =>
      simp only [advance, hpc]
      exact ih

/-! ### Progress -/

/-- The next step of the caller, who has not moved until then. -/
theorem Execution.exists_caller (n : ℕ) : ∃ m, n ≤ m ∧ e.label m = .caller ∧
    (e.state m).pc = (e.state n).pc ∧ (e.state m).waiting = (e.state n).waiting := by
  obtain ⟨m, hnm, hm, hbefore⟩ := e.caller.next n
  refine ⟨m, hnm, hm, ?_, ?_⟩
  · exact eq_of_steps (f := Creator.pc) hnm fun k hk hlt => ((e.next k).frame (hbefore k hk hlt)).1
  · exact eq_of_steps (f := Creator.waiting) hnm fun k hk hlt =>
      ((e.next k).frame (hbefore k hk hlt)).2.2.2.1

theorem pack_advance (c : CreateCall) (s : Creator) : (advance c s).pack = s.pack := by
  unfold advance
  cases hpc : s.pc with
  | gate =>
    dsimp only
    split <;> rfl
  | spin =>
    dsimp only
    split_ifs <;> rfl
  | opening | call | leave | record | store | closing | returned => rfl

/-- A pack is filled once. -/
theorem Next.pack_ne (h : Next c s l s') (hp : s.pack ≠ UNDEFINED_TID) : s'.pack ≠ UNDEFINED_TID := by
  cases h with
  | caller =>
    unfold run
    split_ifs
    · rwa [pack_advance]
    · exact hp
  | fill hrun hcode hpc hpack => exact absurd hpack hp
  | supervise | pay | log | stopped => exact hp

theorem epoch_advance (c : CreateCall) (s : Creator) : (advance c s).sched.epoch = s.sched.epoch := by
  unfold advance
  cases hpc : s.pc with
  | gate =>
    dsimp only
    split <;> rfl
  | spin =>
    dsimp only
    split_ifs <;> rfl
  | opening | call | leave | record | store | closing | returned => rfl

theorem epoch_supervise {sched : Sched} {drawn : ℕ → ℕ} (h : s.sched.supervise c.sched drawn = some sched) :
    sched.epoch = s.sched.epoch + 1 := by
  unfold Sched.supervise at h
  dsimp only at h
  split_ifs at h <;> cases h <;> rfl

theorem Next.epoch_le (h : Next c s l s') : s.sched.epoch ≤ s'.sched.epoch := by
  cases h with
  | caller =>
    unfold run
    split_ifs
    · exact (epoch_advance c s).ge
    · exact le_rfl
  | supervise hrun h => exact (epoch_supervise h).ge.trans' (Nat.le_succ _)
  | pay | log | fill | stopped => exact le_rfl

theorem Execution.epoch_le {n m : ℕ} (h : n ≤ m) : (e.state n).sched.epoch ≤ (e.state m).sched.epoch :=
  le_of_steps (f := fun s : Creator => s.sched.epoch) (fun n => (e.next n).epoch_le) h

/-- A caller that waits remembers an epoch of the past. -/
theorem Execution.waiting_le {n w : ℕ} (h : (e.state n).waiting = some w) : w ≤ (e.state n).sched.epoch := by
  induction n with
  | zero =>
    rw [e.start.waiting] at h
    cases h
  | succ n ih =>
    have hle := e.epoch_le (Nat.le_succ n)
    by_cases hl : e.label n = .caller
    swap
    · rw [((e.next n).frame hl).2.2.2.1] at h
      exact (ih h).trans hle
    by_cases ha : (e.state n).log.aborted = none
    swap
    · rw [e.state_of_aborted (Nat.le_succ n) ha] at h ⊢
      exact ih h
    rw [e.state_succ ha hl] at h ⊢
    rw [epoch_advance]
    unfold advance at h
    cases hpc : (e.state n).pc with
    | gate =>
      simp only [hpc] at h
      split at h
      · exact ih h
      · exact (Option.some.inj h).ge
      · cases h
    | spin =>
      simp only [hpc] at h
      split_ifs at h <;> exact ih h
    | opening | call | leave | record | store | closing | returned =>
      simp only [hpc] at h
      exact ih h

variable (ha : ∀ n, (e.state n).log.aborted = none)

include ha

/-- Whoever waits passes the gate. -/
theorem Execution.pass_of_waiting {n w : ℕ} (hpc : (e.state n).pc = .gate) (hw : (e.state n).waiting = some w) :
    ∃ m, n ≤ m ∧ rank (e.state m) < rank (e.state n) := by
  by_contra hstay
  push Not at hstay
  have hrank : rank (e.state n) = 8 := by simp [rank, hpc]
  have hgate : ∀ m, n ≤ m → (e.state m).pc = .gate := by
    intro m hm
    have := hstay m hm
    rw [hrank] at this
    unfold rank at this
    split at this <;> first | assumption | omega
  -- he waits for the same epoch all the time, and the supervisor starts another one
  have hsame : ∀ m, n ≤ m → (e.state m).waiting = some w := by
    intro m hm
    induction m, hm using Nat.le_induction with
    | base => exact hw
    | succ m hm ih =>
      by_cases hl : e.label m = .caller
      swap
      · exact ((e.next m).frame hl).2.2.2.1.trans ih
      have hg := hgate m hm
      have hg' := hgate (m + 1) (Nat.le_succ_of_le hm)
      rw [e.state_succ (ha m) hl] at hg' ⊢
      simp only [advance, hg, ih, Sched.gate] at hg' ⊢
      split_ifs at hg' ⊢
      exact ih
  obtain ⟨k, hnk, hk⟩ := e.supervisor n
  have hepoch : w < (e.state (k + 1)).sched.epoch := by
    have hle := e.waiting_le (hsame k hnk)
    have hnext := e.next k
    rw [show e.label k = _ from hk] at hnext
    generalize e.state (k + 1) = s' at hnext
    cases hnext with
    | supervise hrun h => exact (epoch_supervise h).ge.trans' (Nat.lt_succ_of_le hle)
    | stopped hstop => exact absurd (ha k) hstop
  obtain ⟨m, hkm, hm, -⟩ := e.exists_caller (k + 1)
  have hnm : n ≤ m := by omega
  have hlt : w < (e.state m).sched.epoch := hepoch.trans_le (e.epoch_le hkm)
  have hg := hgate (m + 1) (Nat.le_succ_of_le hnm)
  rw [e.state_succ (ha m) hm] at hg
  simp [advance, hgate m hnm, hsame m hnm, Sched.gate, hlt.ne] at hg

/-- The caller leaves the loop when the new thread has filled the pack. -/
theorem Execution.pass_of_pack (hcode : c.code = 0) {n : ℕ} (hpc : (e.state n).pc = .spin) :
    ∃ m, n ≤ m ∧ rank (e.state m) < rank (e.state n) := by
  obtain ⟨k, hnk, hk⟩ := e.newThread hcode n hpc (ha n)
  obtain ⟨m, hkm, hm, -⟩ := e.exists_caller k
  have hpack : (e.state m).pack ≠ UNDEFINED_TID := by
    clear hm
    induction m, hkm using Nat.le_induction with
    | base => exact hk
    | succ m _ ih => exact (e.next m).pack_ne ih
  have hle := e.rank_le (hnk.trans hkm)
  by_cases hspin : (e.state m).pc = .spin
  · refine ⟨m + 1, by omega, ?_⟩
    rw [e.state_succ (ha m) hm]
    simp only [advance, hspin, hpack, if_false, rank, hpc]
    split_ifs <;> simp
  · refine ⟨m, hnk.trans hkm, lt_of_le_of_ne hle fun he => hspin ?_⟩
    have hrank : rank (e.state n) = 5 := by simp [rank, hpc]
    rw [hrank] at he
    unfold rank at he
    split at he <;> first | assumption | omega

/-- The caller gets on. -/
theorem Execution.progress (hcode : c.code = 0) (n : ℕ) (hn : (e.state n).pc ≠ .returned c.code) :
    ∃ m, n ≤ m ∧ rank (e.state m) < rank (e.state n) := by
  by_cases hspin : (e.state n).pc = .spin
  · exact e.pass_of_pack ha hcode hspin
  obtain ⟨m, hnm, hm, hpc, hw⟩ := e.exists_caller n
  have hsucc := e.state_succ (ha m) hm
  have hrank : rank (e.state m) = rank (e.state n) := by
    unfold rank
    rw [hpc]
  by_cases hgate : (e.state n).pc = .gate
  · rw [hgate] at hpc
    cases hg : (e.state m).sched.gate c.t (e.state m).waiting with
    | pass =>
      refine ⟨m + 1, Nat.le_succ_of_le hnm, ?_⟩
      rw [hsucc, ← hrank]
      simp [rank, advance, hpc, hg]
    | wait =>
      cases hwait : (e.state m).waiting with
      | none =>
        simp only [hwait, Sched.gate] at hg
        split_ifs at hg
      | some w => exact e.pass_of_waiting ha hgate (hw ▸ hwait)
    | block =>
      have hp' : (e.state (m + 1)).pc = .gate := by
        rw [hsucc]
        simp [advance, hpc, hg]
      have hw' : (e.state (m + 1)).waiting = some (e.state m).sched.epoch := by
        rw [hsucc]
        simp [advance, hpc, hg]
      obtain ⟨k, hk, hlt⟩ := e.pass_of_waiting ha hp' hw'
      exact ⟨k, by omega, by simpa [rank, hgate, hp'] using hlt⟩
  · refine ⟨m + 1, Nat.le_succ_of_le hnm, ?_⟩
    rw [hsucc, ← hrank]
    refine rank_advance_lt (hsucc ▸ ha (m + 1)) (hpc ▸ hgate) (hpc ▸ hspin) fun r hr => ?_
    have hshape := e.shape m (ha m)
    simp only [Shape, hr] at hshape
    exact hn (hpc.symm.trans (hr.trans (by rw [hshape.1])))

omit ha

/-! ### The contract -/

/-- Without a new thread the loop is never left. -/
theorem rank_advance_ge (hpack : s.pack = UNDEFINED_TID) (h : 5 ≤ rank s) : 5 ≤ rank (advance c s) := by
  cases hpc : s.pc with
  | gate =>
    simp only [advance, hpc]
    split <;> simp [rank, hpc]
  | opening =>
    simp only [advance, hpc, logged, rank]
    split_ifs <;> simp
  | call => simp [advance, hpc, rank]
  | spin => simp [advance, hpc, hpack, rank]
  | leave | record | store | closing | returned => simp [rank, hpc] at h

theorem Execution.stuck (hcode : c.code ≠ 0) (n : ℕ) :
    (e.state n).pack = UNDEFINED_TID ∧ 5 ≤ rank (e.state n) := by
  induction n with
  | zero =>
    refine ⟨e.start.pack, ?_⟩
    have hpc := e.start.pc
    split_ifs at hpc <;> simp [rank, hpc]
  | succ n ih =>
    obtain ⟨hpack, hrank⟩ := ih
    by_cases hl : e.label n = .caller
    · by_cases ha : (e.state n).log.aborted = none
      · rw [e.state_succ ha hl, pack_advance]
        exact ⟨hpack, rank_advance_ge hpack hrank⟩
      · rw [e.state_of_aborted (Nat.le_succ n) ha]
        exact ⟨hpack, hrank⟩
    · refine ⟨?_, ?_⟩
      · have hnext := e.next n
        generalize e.state (n + 1) = s', e.label n = l at hnext hl
        cases hnext with
        | caller => exact absurd rfl hl
        | fill hrun hcode' => exact absurd hcode' hcode
        | supervise | pay | log | stopped => exact hpack
      · unfold rank at hrank ⊢
        rwa [((e.next n).frame hl).1]

/-- A wrapper that has returned has not been stopped by an `assert`. -/
theorem Execution.aborted_of_returned {n r : ℕ} (hn : (e.state n).pc = .returned r) :
    (e.state n).log.aborted = none := by
  induction n with
  | zero => exact e.start.aborted
  | succ n ih =>
    by_cases ha : (e.state n).log.aborted = none
    swap
    · rw [e.state_of_aborted (Nat.le_succ n) ha] at hn ⊢
      exact ih hn
    by_cases hl : e.label n = .caller
    swap
    · exact ((e.next n).frame hl).2.2.2.2.trans ha
    have hshape := e.shape n ha
    rw [e.state_succ ha hl] at hn ⊢
    cases hpc : (e.state n).pc with
    | closing =>
      have hclose := (shape_closing ha hpc hshape).1
      rwa [run, if_pos ha] at hclose
    | spin =>
      simp only [advance, hpc]
      split_ifs <;> exact ha
    | returned =>
      simp only [advance, hpc]
      exact ha
    | gate =>
      simp only [advance, hpc]
      split <;> exact ha
    | opening | record | store =>
      simp only [advance, hpc, logged] at hn
      split_ifs at hn
    | call | leave => simp [advance, hpc] at hn

/-- A call with both hooks on. -/
def createCall (code : ℕ) : CreateCall where
  log := ⟨true, false, false⟩
  sched := ⟨true, false, 100, 1, 10, by decide, []⟩
  t := 1
  inst := 4
  code := code
  hookBefore := true
  hookAfter := true
  hookAfter_le := id

/-- The caller has money, and the log is empty. -/
def beforeCreate : Creator where
  sched := .init fun _ => 5
  waiting := none
  log := ⟨0, fun _ => none, none⟩
  loc := ⟨MAX_NUMBER, MAX_NUMBER, MAX_NUMBER, [], []⟩
  pack := UNDEFINED_TID
  pc := .gate
  slot := none

theorem start_beforeCreate (code : ℕ) : Start (createCall code) beforeCreate :=
  ⟨rfl, rfl, by decide, rfl, rfl, rfl, rfl⟩

/-- The caller goes first, up to the loop; then the new thread fills its pack, if it is there, and then the
supervisor and the caller take turns. -/
def turn (c : CreateCall) (n : ℕ) : Label :=
  if n < 3 then .caller
  else if n = 3 then (if c.code = 0 then .newThread else .supervisor)
  else if n % 2 = 0 then .caller else .supervisor

/-- The supervisor resets the money while the program runs. -/
def reset (s : Creator) : Creator :=
  if s.log.aborted = none then
    { s with sched := { s.sched.startNewEpoch with nrEpoch := s.sched.nrEpoch + 1 } }
  else s

/-- The run with these turns. -/
def turns (c : CreateCall) : ℕ → Creator
  | 0 => beforeCreate
  | n + 1 =>
    match turn c n with
    | .caller => run c (turns c n)
    | .newThread => { turns c n with pack := 2 }
    | _ => reset (turns c n)

theorem next_reset (h : c.sched.randomMoney = false) : Next c s .supervisor (reset s) := by
  unfold reset
  split_ifs with ha
  · have hsupervise : s.sched.supervise c.sched s.sched.initMoney =
        some { s.sched.startNewEpoch with nrEpoch := s.sched.nrEpoch + 1 } := by simp [Sched.supervise, h]
    exact .supervise ha hsupervise
  · exact .stopped ha

theorem next_turns (code n : ℕ) :
    Next (createCall code) (turns (createCall code) n) (turn (createCall code) n)
      (turns (createCall code) (n + 1)) := by
  rw [turns]
  cases hturn : turn (createCall code) n with
  | caller => exact .caller
  | supervisor => exact next_reset rfl
  | others =>
    unfold turn at hturn
    split_ifs at hturn
  | newThread =>
    unfold turn at hturn
    split_ifs at hturn with hlt hn hcode
    subst hn
    obtain rfl : code = 0 := hcode
    exact .fill (by decide) rfl (by decide) (by decide) (by decide)

theorem turns_caller (c : CreateCall) : Recurs fun n => turn c n = .caller := fun n => by
  refine ⟨2 * (n + 2), by omega, ?_⟩
  simp only [turn]
  split_ifs <;> first | rfl | omega

theorem turns_supervisor (c : CreateCall) : Recurs fun n => turn c n = .supervisor := fun n => by
  refine ⟨2 * (n + 2) + 1, by omega, ?_⟩
  simp only [turn]
  split_ifs <;> first | rfl | omega

theorem turns_pack (n : ℕ) : (turns (createCall 0) (n + 4)).pack = 2 := by
  induction n with
  | zero => decide
  | succ n ih =>
    rw [show n + 1 + 4 = n + 4 + 1 by omega, turns]
    split
    · unfold run
      split_ifs
      · rw [pack_advance, ih]
      · exact ih
    · rfl
    · unfold reset
      split_ifs <;> exact ih

/-- The run in which `pthread_create` returns `code`. -/
def creation (code : ℕ) : Execution (createCall code) where
  state := turns (createCall code)
  label := turn (createCall code)
  start := start_beforeCreate code
  next := next_turns code
  caller := turns_caller _
  supervisor := turns_supervisor _
  newThread := by
    rintro (rfl : code = 0) n - -
    exact ⟨n + 4, by omega, by simp [turns_pack, UNDEFINED_TID]⟩

end Creator

end Schnauzer
