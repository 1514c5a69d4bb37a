import Schnauzer.Core.Tid

/-!
# Threads that come and go

The wrappers of `runtime/core/Interface` for creating, ending and joining threads, and the
stub in which a new thread starts: who registers when, what goes through the pack of a new
thread, and which tids the logged events get. Any number of threads, each identified by a
number that nobody reuses, may be interleaved in any way.

The `pthread` library gives a new thread a `pthread_t` that is free: that of a thread which has
been joined, or which was detached and has ended, or one that nobody has had. A program joins only
threads whose creator has come back from the wrapper, that are not detached, and that nobody else
joins.

Thread `0` is the main thread, which `_before_main` registers. Its return ends the process.

## What is proved

* `step_cases` — what a step does.
* `lives_of_stepped` — what it means for the lives of the threads.
-/

namespace Schnauzer

open Runs

/-- Where a thread is. -/
inductive ThreadPc where
  /-- It has not been created. -/
  | absent
  /-- In the stub, in front of `getNewTid`. -/
  | starting
  /-- In the stub, in front of the store into its pack. -/
  | storing
  /-- In its routine. -/
  | running
  /-- In `pthread_create_wrapper`; it waits for the thread `q` to fill its pack. -/
  | creating (q : ℕ)
  /-- In `lookupTid`, with the entry for thread `q` in its hand. -/
  | looking (q : ℕ)
  /-- In `pthread_join`. -/
  | joining (q remoteTid : ℕ)
  /-- In front of the event of the join. -/
  | joined (q remoteTid : ℕ)
  /-- In the stub, in front of `unregisterCurrThread`. -/
  | returning
  /-- It has returned. -/
  | returned
  /-- It has left through `pthread_exit_wrapper`. -/
  | exited
  deriving DecidableEq

/-- How far a thread is in its life. -/
inductive Phase where
  /-- It has not been created. -/
  | absent
  /-- It has not registered. -/
  | starting
  /-- It has registered and has not ended. -/
  | alive
  /-- It has ended. -/
  | returned
  /-- It has ended in `pthread_exit`. -/
  | exited
  deriving DecidableEq

/-- The phase of a thread at its place. -/
def ThreadPc.phase : ThreadPc → Phase
  | .absent => .absent
  | .starting => .starting
  | .returned => .returned
  | .exited => .exited
  | _ => .alive

/-- The thread has ended. -/
def ThreadPc.over (pc : ThreadPc) : Bool := pc.phase == .returned || pc.phase == .exited

/-- A thread. -/
structure Pthread where
  /-- Where it is. -/
  pc : ThreadPc
  /-- Its `pthread_t`. -/
  handle : ℕ
  /-- The `tid_` of its pack. -/
  pack : ℕ
  /-- Its creator has come back from the wrapper. -/
  announced : Bool
  /-- It is detached. -/
  detached : Bool
  /-- Who joins it. -/
  joiner : Option ℕ
  /-- It has been joined. -/
  joined : Bool

namespace Pthread

/-- Its `pthread_t` may be given to another thread. -/
def freed (th : Pthread) : Bool := th.joined || (th.detached && th.pc.over)

/-- It may be joined. -/
def joinable (th : Pthread) : Bool := th.announced && !th.detached && th.joiner.isNone

end Pthread

/-- What an event says. -/
inductive ThreadEvent where
  /-- Anything else. -/
  | other
  /-- `OP_THD_CREATE`, of thread `q`. -/
  | create (q remoteTid : ℕ)
  /-- `OP_THD_JOIN`, of thread `q`. -/
  | join (q remoteTid : ℕ)

/-- An event, with the thread that has logged it. -/
structure LoggedEvent where
  thread : ℕ
  tid : ℕ
  event : ThreadEvent

/-- The process. -/
structure Process where
  /-- `core/Tid`. -/
  reg : Registry
  /-- The threads. -/
  thr : ℕ → Pthread
  /-- Those that have been created. -/
  created : List ℕ
  /-- The events. -/
  log : List LoggedEvent
  /-- The `assert` of `lookupTid` has failed. -/
  aborted : Bool

namespace Process

/-- A step. -/
inductive Action where
  /-- Thread `p` creates thread `q`. -/
  | create (p q handle : ℕ) (detached : Bool)
  /-- `getNewTid` in the stub. -/
  | register (q : ℕ)
  /-- The store into the pack. -/
  | store (q : ℕ)
  /-- The creator sees it, logs and comes back. -/
  | announce (p : ℕ)
  /-- A thread logs another event. -/
  | log (p : ℕ)
  /-- The routine of a thread returns. -/
  | ret (p : ℕ)
  /-- `unregisterCurrThread` in the stub. -/
  | unregister (p : ℕ)
  /-- `pthread_exit_wrapper`. -/
  | exit (p : ℕ)
  /-- Thread `p` detaches thread `q`. -/
  | detach (p q : ℕ)
  /-- Thread `p` joins thread `q`: the search of `lookupTid`. -/
  | join (p q : ℕ)
  /-- The end of `lookupTid`. -/
  | read (p : ℕ)
  /-- `pthread_join` returns. -/
  | joinReturns (p : ℕ)
  /-- The event of a join. -/
  | logJoin (p : ℕ)
  deriving DecidableEq

/-- A new thread. -/
def newThread (handle : ℕ) (detached : Bool) : Pthread :=
  ⟨.starting, handle, UNDEFINED_TID, false, detached, none, false⟩

/-- After `_before_main`. -/
def init (reuseTid : Bool) (handle : ℕ) : Process where
  reg := Registry.init.register reuseTid 0 handle
  thr p := if p = 0 then ⟨.running, handle, UNDEFINED_TID, true, false, none, false⟩
    else ⟨.absent, 0, UNDEFINED_TID, false, false, none, false⟩
  created := [0]
  log := []
  aborted := false

/-- A thread changes. -/
def upd (s : Process) (p : ℕ) (f : Pthread → Pthread) : Process :=
  { s with thr := Function.update s.thr p (f (s.thr p)) }

/-- A thread goes to another place. -/
def goto (s : Process) (p : ℕ) (pc : ThreadPc) : Process := s.upd p fun th => { th with pc }

/-- A thread logs an event, under its tid. -/
def logEvent (s : Process) (p : ℕ) (event : ThreadEvent) : Process :=
  { s with log := s.log ++ [⟨p, s.reg.myTid p, event⟩] }

/-- The `pthread_t` is free. -/
def Free (s : Process) (handle : ℕ) : Prop := ∀ r ∈ s.created, (s.thr r).handle = handle → (s.thr r).freed

instance (s : Process) (handle : ℕ) : Decidable (s.Free handle) := by
  unfold Free
  infer_instance

/-- A step in a state where the process runs. -/
def act (reuseTid : Bool) (s : Process) : Action → Option Process
  | .create p q handle detached =>
    if (s.thr p).pc = .running ∧ q ∉ s.created ∧ s.Free handle then
      some { (s.upd q fun _ => newThread handle detached).goto p (.creating q) with created := q :: s.created }
    else none
  | .register q =>
    if (s.thr q).pc = .starting then
      some { s.goto q .storing with reg := s.reg.register reuseTid q (s.thr q).handle }
    else none
  | .store q =>
    if (s.thr q).pc = .storing then
      some (s.upd q fun th => { th with pc := .running, pack := s.reg.myTid q })
    else none
  | .announce p =>
    match (s.thr p).pc with
    | .creating q =>
      if (s.thr q).pack ≠ UNDEFINED_TID then
        some (((s.upd q fun th => { th with announced := true }).goto p .running).logEvent p
          (.create q (s.thr q).pack))
      else none
    | _ => none
  | .log p => if (s.thr p).pc = .running then some (s.logEvent p .other) else none
  | .ret p => if (s.thr p).pc = .running ∧ p ≠ 0 then some (s.goto p .returning) else none
  | .unregister p =>
    if (s.thr p).pc = .returning then
      (s.reg.unregister p).map fun reg => { s.goto p .returned with reg }
    else none
  | .exit p => if (s.thr p).pc = .running then some (s.goto p .exited) else none
  | .detach p q =>
    if (s.thr p).pc = .running ∧ q ∈ s.created ∧ ¬ (s.thr q).detached ∧ (s.thr q).joiner = none then
      some (s.upd q fun th => { th with detached := true })
    else none
  | .join p q =>
    if (s.thr p).pc = .running ∧ q ∈ s.created ∧ (s.thr q).joinable then
      match Tid.lookupTid (s.thr q).handle s.reg.tids with
      | none => some { s with aborted := true }
      | some _ => some ((s.upd q fun th => { th with joiner := some p }).goto p (.looking q))
    else none
  | .read p =>
    match (s.thr p).pc with
    | .looking q =>
      (Tid.lookupTid (s.thr q).handle s.reg.tids).map fun remoteTid => s.goto p (.joining q remoteTid)
    | _ => none
  | .joinReturns p =>
    match (s.thr p).pc with
    | .joining q remoteTid =>
      if (s.thr q).pc.over then
        some ((s.upd q fun th => { th with joined := true }).goto p (.joined q remoteTid))
      else none
    | _ => none
  | .logJoin p =>
    match (s.thr p).pc with
    | .joined q remoteTid => some ((s.goto p .running).logEvent p (.join q remoteTid))
    | _ => none

/-- A step; nothing follows an `assert` that has failed, or a store past the end of the table. -/
def step (reuseTid : Bool) (s : Process) (a : Action) : Option Process :=
  if s.aborted || s.reg.tids.overrun then none else act reuseTid s a

/-! ### What a step does -/

/-- The steps, one by one. -/
inductive Stepped (reuseTid : Bool) (s : Process) : Action → Process → Prop where
  /-- A thread creates another one. -/
  | create {p q handle : ℕ} {detached : Bool} (hp : (s.thr p).pc = .running) (hq : q ∉ s.created)
      (hfree : s.Free handle) :
      Stepped reuseTid s (.create p q handle detached)
        { (s.upd q fun _ => newThread handle detached).goto p (.creating q) with created := q :: s.created }
  /-- A new thread registers. -/
  | register {q : ℕ} (hq : (s.thr q).pc = .starting) :
      Stepped reuseTid s (.register q)
        { s.goto q .storing with reg := s.reg.register reuseTid q (s.thr q).handle }
  /-- It fills its pack. -/
  | store {q : ℕ} (hq : (s.thr q).pc = .storing) :
      Stepped reuseTid s (.store q) (s.upd q fun th => { th with pc := .running, pack := s.reg.myTid q })
  /-- Its creator logs the event. -/
  | announce {p q : ℕ} (hp : (s.thr p).pc = .creating q) (hq : (s.thr q).pack ≠ UNDEFINED_TID) :
      Stepped reuseTid s (.announce p)
        (((s.upd q fun th => { th with announced := true }).goto p .running).logEvent p
          (.create q (s.thr q).pack))
  /-- A thread logs an event. -/
  | log {p : ℕ} (hp : (s.thr p).pc = .running) : Stepped reuseTid s (.log p) (s.logEvent p .other)
  /-- A routine returns. -/
  | ret {p : ℕ} (hp : (s.thr p).pc = .running) (hmain : p ≠ 0) :
      Stepped reuseTid s (.ret p) (s.goto p .returning)
  /-- A thread unregisters. -/
  | unregister {p : ℕ} {reg : Registry} (hp : (s.thr p).pc = .returning) (hreg : s.reg.unregister p = some reg) :
      Stepped reuseTid s (.unregister p) { s.goto p .returned with reg := reg }
  /-- A thread exits. -/
  | exit {p : ℕ} (hp : (s.thr p).pc = .running) : Stepped reuseTid s (.exit p) (s.goto p .exited)
  /-- A thread is detached. -/
  | detach {p q : ℕ} (hp : (s.thr p).pc = .running) (hq : q ∈ s.created) (hd : ¬ (s.thr q).detached)
      (hj : (s.thr q).joiner = none) :
      Stepped reuseTid s (.detach p q) (s.upd q fun th => { th with detached := true })
  /-- The thread to be joined is not found. -/
  | lost {p q : ℕ} (hp : (s.thr p).pc = .running) (hq : q ∈ s.created) (hj : (s.thr q).joinable)
      (hl : Tid.lookupTid (s.thr q).handle s.reg.tids = none) :
      Stepped reuseTid s (.join p q) { s with aborted := true }
  /-- It is found. -/
  | join {p q : ℕ} (hp : (s.thr p).pc = .running) (hq : q ∈ s.created) (hj : (s.thr q).joinable) :
      Stepped reuseTid s (.join p q) ((s.upd q fun th => { th with joiner := some p }).goto p (.looking q))
  /-- Its tid is read. -/
  | read {p q remoteTid : ℕ} (hp : (s.thr p).pc = .looking q)
      (hl : Tid.lookupTid (s.thr q).handle s.reg.tids = some remoteTid) :
      Stepped reuseTid s (.read p) (s.goto p (.joining q remoteTid))
  /-- It has been joined. -/
  | joinReturns {p q remoteTid : ℕ} (hp : (s.thr p).pc = .joining q remoteTid) (hq : (s.thr q).pc.over) :
      Stepped reuseTid s (.joinReturns p)
        ((s.upd q fun th => { th with joined := true }).goto p (.joined q remoteTid))
  /-- The event of the join. -/
  | logJoin {p q remoteTid : ℕ} (hp : (s.thr p).pc = .joined q remoteTid) :
      Stepped reuseTid s (.logJoin p) ((s.goto p .running).logEvent p (.join q remoteTid))

variable {reuseTid : Bool} {s s' : Process} {a : Action}

theorem act_cases (h : act reuseTid s a = some s') : Stepped reuseTid s a s' := by
  cases a with
  | create p q handle detached =>
    simp only [act] at h
    split_ifs at h with hc
    cases h
    exact .create hc.1 hc.2.1 hc.2.2
  | register q =>
    simp only [act] at h
    split_ifs at h with hc
    cases h
    exact .register hc
  | store q =>
    simp only [act] at h
    split_ifs at h with hc
    cases h
    exact .store hc
  | announce p =>
    simp only [act] at h
    split at h
    next q hp =>
      split_ifs at h with hc
      cases h
      exact .announce hp hc
    next => cases h
  | log p =>
    simp only [act] at h
    split_ifs at h with hc
    cases h
    exact .log hc
  | ret p =>
    simp only [act] at h
    split_ifs at h with hc
    cases h
    exact .ret hc.1 hc.2
  | unregister p =>
    simp only [act] at h
    split_ifs at h with hc
    obtain ⟨reg, hreg, rfl⟩ := Option.map_eq_some_iff.mp h
    exact .unregister hc hreg
  | exit p =>
    simp only [act] at h
    split_ifs at h with hc
    cases h
    exact .exit hc
  | detach p q =>
    simp only [act] at h
    split_ifs at h with hc
    cases h
    exact .detach hc.1 hc.2.1 hc.2.2.1 hc.2.2.2
  | join p q =>
    simp only [act] at h
    split_ifs at h with hc
    split at h
    next hl =>
      cases h
      exact .lost hc.1 hc.2.1 hc.2.2 hl
    next =>
      cases h
      exact .join hc.1 hc.2.1 hc.2.2
  | read p =>
    simp only [act] at h
    split at h
    next q hp =>
      obtain ⟨remoteTid, hl, rfl⟩ := Option.map_eq_some_iff.mp h
      exact .read hp hl
    next => cases h
  | joinReturns p =>
    simp only [act] at h
    split at h
    next q remoteTid hp =>
      split_ifs at h with hc
      cases h
      exact .joinReturns hp hc
    next => cases h
  | logJoin p =>
    simp only [act] at h
    split at h
    next q remoteTid hp =>
      cases h
      exact .logJoin hp
    next => cases h

/-- **What a step does.** -/
theorem step_cases (h : step reuseTid s a = some s') :
    s.aborted = false ∧ s.reg.tids.overrun = false ∧ Stepped reuseTid s a s' := by
  unfold step at h
  split_ifs at h with hc
  simp only [Bool.or_eq_true, not_or, Bool.not_eq_true] at hc
  exact ⟨hc.1, hc.2, act_cases h⟩

@[simp] theorem upd_thr_self {p : ℕ} {f : Pthread → Pthread} : (s.upd p f).thr p = f (s.thr p) :=
  Function.update_self ..

theorem upd_thr_of_ne {p q : ℕ} {f : Pthread → Pthread} (h : q ≠ p) : (s.upd p f).thr q = s.thr q :=
  Function.update_of_ne h ..

@[simp] theorem goto_thr_self {p : ℕ} {pc : ThreadPc} : (s.goto p pc).thr p = { s.thr p with pc } := upd_thr_self

theorem goto_thr_of_ne {p q : ℕ} {pc : ThreadPc} (h : q ≠ p) : (s.goto p pc).thr q = s.thr q :=
  upd_thr_of_ne h

/-- A change that keeps a field of the thread keeps that field of all. -/
theorem upd_field {α : Type} (g : Pthread → α) {p : ℕ} {f : Pthread → Pthread}
    (h : g (f (s.thr p)) = g (s.thr p)) (q : ℕ) : g ((s.upd p f).thr q) = g (s.thr q) := by
  by_cases hq : q = p
  · subst hq
    rw [upd_thr_self, h]
  · rw [upd_thr_of_ne hq]

@[simp] theorem goto_handle {p q : ℕ} {pc : ThreadPc} :
    ((s.goto p pc).thr q).handle = (s.thr q).handle := upd_field Pthread.handle rfl q

@[simp] theorem goto_pack {p q : ℕ} {pc : ThreadPc} :
    ((s.goto p pc).thr q).pack = (s.thr q).pack := upd_field Pthread.pack rfl q

@[simp] theorem goto_announced {p q : ℕ} {pc : ThreadPc} :
    ((s.goto p pc).thr q).announced = (s.thr q).announced := upd_field Pthread.announced rfl q

@[simp] theorem goto_detached {p q : ℕ} {pc : ThreadPc} :
    ((s.goto p pc).thr q).detached = (s.thr q).detached := upd_field Pthread.detached rfl q

@[simp] theorem goto_joiner {p q : ℕ} {pc : ThreadPc} :
    ((s.goto p pc).thr q).joiner = (s.thr q).joiner := upd_field Pthread.joiner rfl q

@[simp] theorem goto_joined {p q : ℕ} {pc : ThreadPc} :
    ((s.goto p pc).thr q).joined = (s.thr q).joined := upd_field Pthread.joined rfl q

@[simp] theorem logEvent_thr {p : ℕ} {event : ThreadEvent} : (s.logEvent p event).thr = s.thr := rfl

/-! ### Lives -/

/-- The phase of a thread. -/
def phase (s : Process) (p : ℕ) : Phase := (s.thr p).pc.phase

theorem phase_upd {p : ℕ} {f : Pthread → Pthread} :
    (s.upd p f).phase = Function.update s.phase p (f (s.thr p)).pc.phase := by
  funext q
  by_cases h : q = p
  · subst h
    simp [phase]
  · simp [phase, upd_thr_of_ne h, Function.update_of_ne h]

theorem phase_upd_same {p : ℕ} {f : Pthread → Pthread} (h : (f (s.thr p)).pc.phase = (s.thr p).pc.phase) :
    (s.upd p f).phase = s.phase := by
  rw [phase_upd, h]
  exact Function.update_eq_self ..

theorem phase_goto {p : ℕ} {pc : ThreadPc} : (s.goto p pc).phase = Function.update s.phase p pc.phase :=
  phase_upd

theorem phase_goto_same {p : ℕ} {pc : ThreadPc} (h : pc.phase = s.phase p) : (s.goto p pc).phase = s.phase :=
  phase_upd_same h

/-- What a step means for the lives of the threads. -/
inductive Lives (reuseTid : Bool) (s s' : Process) : Action → Prop where
  /-- A thread is created. -/
  | create {p q handle : ℕ} {detached : Bool} (hq : q ∉ s.created)
      (hphase : s'.phase = Function.update s.phase q .starting) (hcreated : s'.created = q :: s.created)
      (hreg : s'.reg = s.reg) : Lives reuseTid s s' (.create p q handle detached)
  /-- A thread registers. -/
  | register {q : ℕ} (hq : s.phase q = .starting) (hphase : s'.phase = Function.update s.phase q .alive)
      (hcreated : s'.created = s.created) (hreg : s'.reg = s.reg.register reuseTid q (s.thr q).handle) :
      Lives reuseTid s s' (.register q)
  /-- A thread unregisters. -/
  | unregister {p : ℕ} (hp : s.phase p = .alive) (hphase : s'.phase = Function.update s.phase p .returned)
      (hcreated : s'.created = s.created) (hreg : s.reg.unregister p = some s'.reg) :
      Lives reuseTid s s' (.unregister p)
  /-- A thread exits. -/
  | exit {p : ℕ} (hp : s.phase p = .alive) (hphase : s'.phase = Function.update s.phase p .exited)
      (hcreated : s'.created = s.created) (hreg : s'.reg = s.reg) : Lives reuseTid s s' (.exit p)
  /-- Nothing. -/
  | stay {a : Action} (ha : ∀ p, a ≠ .exit p) (hphase : s'.phase = s.phase) (hcreated : s'.created = s.created)
      (hreg : s'.reg = s.reg) : Lives reuseTid s s' a

theorem lives_of_stepped (h : Stepped reuseTid s a s') (habsent : ∀ p, s.phase p = .absent ↔ p ∉ s.created) :
    Lives reuseTid s s' a := by
  have hat : ∀ {p pc}, (s.thr p).pc = pc → s.phase p = pc.phase := fun h => congrArg ThreadPc.phase h
  cases h with
  | @create p q handle detached hp hq hfree =>
    have hpq : p ≠ q := by
      rintro rfl
      have := (habsent p).mpr hq
      rw [hat hp] at this
      cases this
    refine .create hq ?_ rfl rfl
    refine (phase_goto_same ?_).trans phase_upd
    rw [phase_upd, Function.update_of_ne hpq, hat hp]
    rfl
  | register hq => exact .register (hat hq) phase_goto rfl rfl
  | store hq => exact .stay nofun (phase_upd_same (by rw [hq]; rfl)) rfl rfl
  | @announce p q hp hq =>
    have hsame : (s.upd q fun th => { th with announced := true }).phase = s.phase := phase_upd_same rfl
    refine .stay nofun ((phase_goto_same ?_).trans hsame) rfl rfl
    rw [hsame, hat hp]
    rfl
  | log hp => exact .stay nofun rfl rfl rfl
  | ret hp hmain => exact .stay nofun (phase_goto_same (by rw [hat hp]; rfl)) rfl rfl
  | unregister hp hreg => exact .unregister (hat hp) phase_goto rfl hreg
  | exit hp => exact .exit (hat hp) phase_goto rfl rfl
  | detach hp hq hd hj => exact .stay nofun (phase_upd_same rfl) rfl rfl
  | lost hp hq hj hl => exact .stay nofun rfl rfl rfl
  | @join p q hp hq hj =>
    have hsame : (s.upd q fun th => { th with joiner := some p }).phase = s.phase := phase_upd_same rfl
    refine .stay nofun ((phase_goto_same ?_).trans hsame) rfl rfl
    rw [hsame, hat hp]
    rfl
  | read hp hl => exact .stay nofun (phase_goto_same (by rw [hat hp]; rfl)) rfl rfl
  | @joinReturns p q remoteTid hp hq =>
    have hsame : (s.upd q fun th => { th with joined := true }).phase = s.phase := phase_upd_same rfl
    refine .stay nofun ((phase_goto_same ?_).trans hsame) rfl rfl
    rw [hsame, hat hp]
    rfl
  | logJoin hp => exact .stay nofun (phase_goto_same (by rw [hat hp]; rfl)) rfl rfl

end Process

end Schnauzer
