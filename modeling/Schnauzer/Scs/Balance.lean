import Schnauzer.Scs.Machine

/-!
# Entering and leaving a synchronisation

Which hooks call `beforeSyncOperation` and which `afterSyncOperation`, and what a step means
for one thread: whether it is between the two (`Pc.inSync`), its money, how often it has
passed a gate, and the epoch it waits for (`Moved`). The hook after
`pthread_mutex_unlock` is the odd one out: it calls `beforeSyncOperation` once more. The
account below is of threads that do not run it (`SkipsAfterUnlock`).

## What is proved

* `moved_of_own_step` — a step of a run is one of six moves of each thread.
-/

namespace Schnauzer

open Machine

/-- The operations whose hooks call `beforeSyncOperation`. -/
def Op.isSync : Op → Bool
  | .create | .join _ | .mutexLock _ | .mutexTrylock _ | .mutexUnlock _ | .mutexDestroy _
  | .condWait _ _ | .condTimedwait _ _ | .condSignal _ | .condBroadcast _ => true
  | _ => false

/-- `pthread_mutex_unlock`. -/
def Op.isUnlock : Op → Bool
  | .mutexUnlock _ => true
  | _ => false

/-- A call that neither enters nor leaves a synchronisation; in the hooks of a synchronisation it
is no gate either. -/
def Stmt.plain (sync : Bool) : Stmt → Bool
  | .log _ => true
  | .scs .beforeFuncCall | .scs .afterFuncCall => !sync
  | .scs .beforeSyncOperation | .scs .afterSyncOperation => false

/-- The rest of a hook has only such calls. -/
def Plain (sync : Bool) (todo : List Stmt) : Prop := ∀ stmt ∈ todo, stmt.plain sync

@[simp] theorem plain_nil (sync : Bool) : Plain sync [] := fun _ h => absurd h List.not_mem_nil

@[simp] theorem plain_cons {sync : Bool} {stmt : Stmt} {todo : List Stmt} :
    Plain sync (stmt :: todo) ↔ stmt.plain sync ∧ Plain sync todo := by
  simp [Plain]

theorem Plain.not_contains {sync : Bool} {todo : List Stmt} (h : Plain sync todo) :
    todo.contains (.scs .beforeSyncOperation) = false ∧
      todo.contains (.scs .afterSyncOperation) = false := by
  simp only [List.contains_eq_mem, decide_eq_false_iff_not]
  exact ⟨fun hm => absurd (h _ hm) (by simp [Stmt.plain]), fun hm => absurd (h _ hm) (by simp [Stmt.plain])⟩

namespace Call

variable (cfg : LogConfig) (call : Call)

theorem plain_logOne (x : ScScheduler.Access) : Plain false (ScScheduler.logOne cfg x) := by
  unfold ScScheduler.logOne
  split_ifs
  · simp [ScScheduler.Access.log, Stmt.plain]
  · exact plain_nil _

theorem plain_logBatch (batch : List Addr) (xs : List ScScheduler.Access) :
    Plain false (ScScheduler.logBatch cfg batch xs) := by
  unfold ScScheduler.logBatch
  split_ifs
  · intro stmt h
    simp only [List.mem_cons, List.mem_append, List.mem_map, List.not_mem_nil, or_false] at h
    rcases h with rfl | ⟨x, -, rfl⟩ | rfl <;> rfl
  · exact plain_nil _

/-- A synchronisation enters first thing. -/
theorem before_of_isSync (h : call.op.isSync) :
    ∃ rest, call.before cfg = .scs .beforeSyncOperation :: rest ∧ Plain true rest := by
  obtain ⟨op, inst, st, sl⟩ := call
  cases op <;> simp only [Op.isSync, Bool.false_eq_true] at h <;> exact ⟨_, rfl, by simp [Stmt.plain]⟩

/-- Other operations do not enter. -/
theorem before_plain (h : ¬ call.op.isSync) : Plain false (call.before cfg) := by
  obtain ⟨op, inst, st, sl⟩ := call
  cases op <;> simp only [Op.isSync, not_true_eq_false] at h <;>
    first
    | exact plain_logOne _ _
    | exact plain_logBatch _ _ _
    | (simp only [before, ScScheduler.beforeLoad, ScScheduler.beforeStore]; split_ifs <;> simp [Stmt.plain])
    | simp [before, ScScheduler.beforeFree, ScScheduler.beforeFuncCall, ScScheduler.afterFuncCall,
        ScScheduler.beforeMemset, ScScheduler.Access.log, Stmt.plain]

/-- A synchronisation other than an unlock leaves first thing afterwards. -/
theorem after_of_isSync (h : call.op.isSync) (hu : ¬ call.op.isUnlock) (r : ℕ) :
    ∃ rest, call.after r = .scs .afterSyncOperation :: rest ∧ Plain true rest := by
  obtain ⟨op, inst, st, sl⟩ := call
  cases op <;> simp only [Op.isSync, Bool.false_eq_true] at h <;>
    simp only [Op.isUnlock, not_true_eq_false] at hu <;> exact ⟨_, rfl, by simp [Stmt.plain]⟩

/-- An unlock enters once more. -/
theorem after_of_isUnlock (h : call.op.isUnlock) (r : ℕ) :
    call.after r = [.scs .beforeSyncOperation] := by
  obtain ⟨op, inst, st, sl⟩ := call
  cases op <;> simp only [Op.isUnlock, Bool.false_eq_true] at h
  rfl

theorem isSync_of_isUnlock {op : Op} (h : op.isUnlock) : op.isSync := by
  cases op <;> simp_all [Op.isUnlock, Op.isSync]

/-- Other operations have no hook afterwards. -/
theorem after_eq_nil (h : ¬ call.op.isSync) (r : ℕ) : call.after r = [] := by
  obtain ⟨op, inst, st, sl⟩ := call
  cases op <;> simp only [Op.isSync, not_true_eq_false] at h <;> rfl

end Call

namespace Pc

/-- The thread has executed the `beforeSyncOperation` of an operation, and not yet the matching
`afterSyncOperation`; an unlock has none. -/
def inSync : Pc → Bool
  | .idle => false
  | .before call todo => call.op.isSync && !todo.contains (.scs .beforeSyncOperation)
  | .inside call => call.op.isSync
  | .after call todo => call.op.isSync && (call.op.isUnlock || todo.contains (.scs .afterSyncOperation))

/-- The thread is in the hook after an unlock. -/
def afterUnlock : Pc → Bool
  | .after call _ => call.op.isUnlock
  | _ => false

/-- What is left of a hook is all of it, or plain. -/
def Ok (cfg : LogConfig) : Pc → Prop
  | .before call todo => todo = call.before cfg ∨ Plain call.op.isSync todo
  | .after call todo => (∃ r, todo = call.after r) ∨ ¬ call.op.isUnlock ∧ Plain call.op.isSync todo
  | _ => True

end Pc

/-- At `beforeSyncOperation`, outside the hook after an unlock, a thread is not in a
synchronisation; past it, it is. -/
theorem Pc.Ok.enter {cfg : LogConfig} {pc next : Pc} {call : Call} (hok : pc.Ok cfg)
    (hpc : pc.head = some (call, .scs .beforeSyncOperation, next)) (hu : ¬ pc.afterUnlock) :
    pc.inSync = false ∧ next.inSync = true ∧ next.Ok cfg := by
  cases pc with
  | idle => cases hpc
  | inside c => cases hpc
  | before c todo =>
    cases todo with
    | nil => cases hpc
    | cons stmt todo =>
      obtain ⟨rfl, rfl, rfl⟩ : c = call ∧ stmt = .scs .beforeSyncOperation ∧ .before c todo = next := by
        simpa [head] using hpc
      rcases hok with hb | hplain
      · by_cases hs : c.op.isSync
        · obtain ⟨rest, hrest, hplain⟩ := c.before_of_isSync cfg hs
          obtain rfl : todo = rest := (List.cons.inj (hb.trans hrest)).2
          refine ⟨by simp [inSync], ?_, Or.inr (hs ▸ hplain)⟩
          simp only [inSync, hs, hplain.not_contains.1, Bool.not_false, Bool.and_self]
        · have hp := c.before_plain cfg hs
          rw [← hb] at hp
          exact absurd (plain_cons.mp hp).1 (by simp [Stmt.plain])
      · exact absurd (plain_cons.mp hplain).1 (by simp [Stmt.plain])
  | after c todo =>
    cases todo with
    | nil => cases hpc
    | cons stmt todo =>
      obtain ⟨rfl, rfl, rfl⟩ : c = call ∧ stmt = .scs .beforeSyncOperation ∧ .after c todo = next := by
        simpa [head] using hpc
      rcases hok with ⟨r, hr⟩ | ⟨-, hplain⟩
      · by_cases hs : c.op.isSync
        · obtain ⟨rest, hrest, -⟩ := c.after_of_isSync hs hu r
          cases hr.trans hrest
        · rw [c.after_eq_nil hs r] at hr
          cases hr
      · exact absurd (plain_cons.mp hplain).1 (by simp [Stmt.plain])

/-- At `afterSyncOperation` a thread is in a synchronisation; past it, it is not. -/
theorem Pc.Ok.leave {cfg : LogConfig} {pc next : Pc} {call : Call} (hok : pc.Ok cfg)
    (hpc : pc.head = some (call, .scs .afterSyncOperation, next)) :
    pc.inSync = true ∧ next.inSync = false ∧ next.Ok cfg := by
  cases pc with
  | idle => cases hpc
  | inside c => cases hpc
  | before c todo =>
    cases todo with
    | nil => cases hpc
    | cons stmt todo =>
      obtain ⟨rfl, rfl, -⟩ : c = call ∧ stmt = .scs .afterSyncOperation ∧ .before c todo = next := by
        simpa [head] using hpc
      rcases hok with hb | hplain
      · by_cases hs : c.op.isSync
        · obtain ⟨rest, hrest, -⟩ := c.before_of_isSync cfg hs
          cases hb.trans hrest
        · have hp := c.before_plain cfg hs
          rw [← hb] at hp
          exact absurd (plain_cons.mp hp).1 (by simp [Stmt.plain])
      · exact absurd (plain_cons.mp hplain).1 (by simp [Stmt.plain])
  | after c todo =>
    cases todo with
    | nil => cases hpc
    | cons stmt todo =>
      obtain ⟨rfl, rfl, rfl⟩ : c = call ∧ stmt = .scs .afterSyncOperation ∧ .after c todo = next := by
        simpa [head] using hpc
      rcases hok with ⟨r, hr⟩ | ⟨-, hplain⟩
      · by_cases hu : c.op.isUnlock
        · rw [c.after_of_isUnlock hu r] at hr
          cases hr
        · by_cases hs : c.op.isSync
          · obtain ⟨rest, hrest, hplain⟩ := c.after_of_isSync hs hu r
            obtain rfl : todo = rest := (List.cons.inj (hr.trans hrest)).2
            refine ⟨by simp [inSync, hs], ?_, Or.inr ⟨hu, hs ▸ hplain⟩⟩
            simp only [inSync, hu, hplain.not_contains.2, Bool.or_self, Bool.and_false]
          · rw [c.after_eq_nil hs r] at hr
            cases hr
      · exact absurd (plain_cons.mp hplain).1 (by simp [Stmt.plain])

/-- Past any other call of a hook a thread is in a synchronisation if it was. -/
theorem Pc.Ok.plain {cfg : LogConfig} {pc next : Pc} {call : Call} {stmt : Stmt} (hok : pc.Ok cfg)
    (hpc : pc.head = some (call, stmt, next)) (hb : stmt ≠ .scs .beforeSyncOperation)
    (ha : stmt ≠ .scs .afterSyncOperation) (hu : ¬ pc.afterUnlock) :
    stmt.plain call.op.isSync ∧ next.inSync = pc.inSync ∧ next.Ok cfg := by
  cases pc with
  | idle => cases hpc
  | inside c => cases hpc
  | before c todo =>
    cases todo with
    | nil => cases hpc
    | cons stmt' todo =>
      obtain ⟨rfl, rfl, rfl⟩ : c = call ∧ stmt' = stmt ∧ .before c todo = next := by
        simpa [head] using hpc
      have hplain : Plain c.op.isSync (stmt' :: todo) := by
        rcases hok with hok | hok
        · by_cases hs : c.op.isSync
          · obtain ⟨rest, hrest, -⟩ := c.before_of_isSync cfg hs
            exact absurd (List.cons.inj (hok.trans hrest)).1 hb
          · have hp := c.before_plain cfg hs
            rwa [← hok, ← Bool.eq_false_of_not_eq_true hs] at hp
        · exact hok
      obtain ⟨hstmt, hplain'⟩ := plain_cons.mp hplain
      refine ⟨hstmt, ?_, Or.inr hplain'⟩
      simp only [inSync, hplain.not_contains.1, hplain'.not_contains.1]
  | after c todo =>
    cases todo with
    | nil => cases hpc
    | cons stmt' todo =>
      obtain ⟨rfl, rfl, rfl⟩ : c = call ∧ stmt' = stmt ∧ .after c todo = next := by
        simpa [head] using hpc
      have hplain : Plain c.op.isSync (stmt' :: todo) := by
        rcases hok with ⟨r, hr⟩ | ⟨-, hok⟩
        · by_cases hs : c.op.isSync
          · obtain ⟨rest, hrest, -⟩ := c.after_of_isSync hs hu r
            exact absurd (List.cons.inj (hr.trans hrest)).1 ha
          · rw [c.after_eq_nil hs r] at hr
            cases hr
        · exact hok
      obtain ⟨hstmt, hplain'⟩ := plain_cons.mp hplain
      refine ⟨hstmt, ?_, Or.inr ⟨hu, hplain'⟩⟩
      simp only [inSync, hplain.not_contains.2, hplain'.not_contains.2]

/-- A gate is passed outside synchronisations. -/
theorem Pc.inSync_of_not_isSync {pc next : Pc} {call : Call} {stmt : Stmt}
    (hpc : pc.head = some (call, stmt, next)) (hs : ¬ call.op.isSync) : pc.inSync = false := by
  cases pc with
  | idle => rfl
  | inside c => cases hpc
  | before c todo =>
    cases todo with
    | nil => cases hpc
    | cons stmt' todo =>
      obtain ⟨rfl, -⟩ : c = call ∧ _ := by simpa [head] using hpc
      simp [inSync, hs]
  | after c todo =>
    cases todo with
    | nil => cases hpc
    | cons stmt' todo =>
      obtain ⟨rfl, -⟩ : c = call ∧ _ := by simpa [head] using hpc
      simp [inSync, hs]

/-- The action is not a call of thread `t` in the hook after an unlock. -/
def SkipsAfterUnlock (t : ℕ) (s : State) (a : Action) : Prop :=
  a = .exec t → ¬ (s.thr t).pc.afterUnlock

instance (t : ℕ) (s : State) (a : Action) : Decidable (SkipsAfterUnlock t s a) :=
  match a with
  | .exec u => decidable_of_iff (u = t → ¬ (s.thr t).pc.afterUnlock)
      ⟨fun h he => h (Action.exec.inj he), fun h hu => h (hu ▸ rfl)⟩
  | .call _ _ | .store _ | .ret _ | .real _ _ | .supervise _ => isTrue fun h => nomatch h

/-! ### One thread's account -/

/-- What the gates know of a thread. -/
@[ext]
structure Account where
  /-- It is between `beforeSyncOperation` and `afterSyncOperation`. -/
  inSync : Bool
  /-- Its money. -/
  money : ℕ
  /-- How often it has paid. -/
  passes : ℕ
  /-- The epoch in which it began to wait. -/
  waiting : Option ℕ
  /-- The epoch. -/
  epoch : ℕ

/-- The account of thread `t`. -/
def State.account (s : State) (t : ℕ) : Account :=
  ⟨(s.thr t).pc.inSync, s.sched.money t, s.passes t, (s.thr t).waiting, s.sched.epoch⟩

/-- A thread may pass the gate: it has money, or the epoch it waited for has come. -/
def Account.IsOpen (x : Account) : Prop :=
  match x.waiting with
  | none => x.money ≠ 0
  | some lastEpoch => lastEpoch ≠ x.epoch

open MoneyMngr in
/-- The moves of an account between two resets. -/
inductive Account.Move (x : Account) : Account → Prop where
  /-- No change. -/
  | still : Move x x
  /-- The thread begins to wait. -/
  | block (hs : x.inSync = false) (hm : x.money = 0) (hw : x.waiting = none) :
      Move x { x with waiting := some x.epoch }
  /-- The thread pays and enters a synchronisation. -/
  | enter (hs : x.inSync = false) (hopen : x.IsOpen) :
      Move x { x with inSync := true, money := currThreadEnterSync (decCurrThreadMoney x.money),
                      passes := x.passes + 1, waiting := none }
  /-- The thread pays for a function call. -/
  | pay (hs : x.inSync = false) (hopen : x.IsOpen) :
      Move x { x with money := decCurrThreadMoney x.money, passes := x.passes + 1, waiting := none }
  /-- The thread leaves a synchronisation. -/
  | leave (hs : x.inSync = true) :
      Move x { x with inSync := false, money := currThreadLeaveSync x.money }

variable {cfg : Config} {s s' : State} {a : Action} {t : ℕ}

theorem isOpen_of_gate (h : s.sched.gate t (s.thr t).waiting = .pass) : (s.account t).IsOpen := by
  unfold Sched.gate at h
  unfold Account.IsOpen State.account
  dsimp only
  cases hw : (s.thr t).waiting with
  | none =>
    rw [hw] at h
    dsimp only at h ⊢
    split_ifs at h with hm
    exact hm
  | some e =>
    rw [hw] at h
    dsimp only at h ⊢
    split_ifs at h with hm
    exact hm

/-- A step of another thread or of the supervisor leaves a thread alone. -/
theorem thr_of_ne (hstep : Stepped cfg s a s') (ha : a.thread ≠ some t) : s'.thr t = s.thr t := by
  cases hstep <;> simp [Action.thread, setThr] at ha ⊢ <;> exact Function.update_of_ne (Ne.symm ha) _ _

/-- A step of another thread leaves the account alone. -/
theorem account_of_ne {u : ℕ} (hstep : Stepped cfg s a s') (ha : a.thread = some u) (hu : t ≠ u) :
    s'.account t = s.account t := by
  cases hstep <;> cases ha <;>
    simp [State.account, setThr, Function.update_of_ne hu, Sched.payAndEnter, Sched.pay,
      Sched.afterSyncOperation, Sched.setMoney]

/-- A step of a thread changes neither the initial amounts nor the epoch. -/
theorem initMoney_of_step (hstep : Stepped cfg s a s') (ha : a.thread ≠ none) :
    s'.sched.initMoney = s.sched.initMoney ∧ s'.sched.epoch = s.sched.epoch := by
  cases hstep <;> first | exact ⟨rfl, rfl⟩ | exact absurd rfl ha

theorem moved_of_account_eq (h : s'.account t = s.account t) : (s.account t).Move (s'.account t) := by
  rw [h]
  exact .still

/-- A call begins outside a synchronisation. -/
theorem Pc.inSync_before (cfg : LogConfig) (call : Call) : (Pc.before call (call.before cfg)).inSync = false := by
  by_cases hs : call.op.isSync
  · obtain ⟨rest, hrest, -⟩ := call.before_of_isSync cfg hs
    simp [Pc.inSync, hrest]
  · simp [Pc.inSync, hs]

/-- It is in one when the operation is over, until the hook leaves it. -/
theorem Pc.inSync_after (call : Call) (r : ℕ) : (Pc.after call (call.after r)).inSync = call.op.isSync := by
  by_cases hu : call.op.isUnlock
  · simp [Pc.inSync, hu]
  · by_cases hs : call.op.isSync
    · obtain ⟨rest, hrest, -⟩ := call.after_of_isSync hs hu r
      simp [Pc.inSync, hrest, hs]
    · simp [Pc.inSync, hs]

/-- A hook that has run to its end, if it is not the one that enters once more. -/
theorem Pc.Ok.not_isUnlock {cfg : LogConfig} {call : Call} (h : (Pc.after call []).Ok cfg) : ¬ call.op.isUnlock := by
  obtain ⟨r, hr⟩ | ⟨hu, -⟩ := h
  · intro hu
    rw [call.after_of_isUnlock hu r] at hr
    cases hr
  · exact hu

/-- **Moves**: a step of a thread is a move of its account. -/
theorem moved_of_own_step (hstep : Stepped cfg s a s') (ha : a.thread = some t)
    (hok : ((s.thr t).pc).Ok cfg.log) (hskip : SkipsAfterUnlock t s a) :
    (s.account t).Move (s'.account t) ∧ ((s'.thr t).pc).Ok cfg.log := by
  cases hstep with
  | @call u call hpc ht =>
    cases ha
    have hs₀ : (s.thr t).pc.inSync = false := by
      rw [hpc]
      rfl
    exact ⟨moved_of_account_eq (by simp [State.account, setThr, Pc.inSync_before, hs₀]), by simp [setThr, Pc.Ok]⟩
  | @block u call c next hpc hc hw hm =>
    cases ha
    have hu := hskip rfl
    have hs : (s.thr t).pc.inSync = false := by
      cases c with
      | beforeSyncOperation => exact (hok.enter hpc hu).1
      | afterSyncOperation => exact absurd rfl hc
      | beforeFuncCall | afterFuncCall =>
        apply Pc.inSync_of_not_isSync hpc
        simpa [Stmt.plain] using (hok.plain hpc (by decide) (by decide) hu).1
    refine ⟨?_, by simpa [setThr] using hok⟩
    have hmove := Account.Move.block (x := s.account t) hs hm hw
    convert hmove using 1
    simp [State.account, setThr]
  | @enter u call next hpc hg =>
    cases ha
    obtain ⟨hs, hs', hok'⟩ := hok.enter hpc (hskip rfl)
    refine ⟨?_, by simpa [setThr] using hok'⟩
    have hmove := Account.Move.enter (x := s.account t) hs (isOpen_of_gate hg)
    convert hmove using 1
    simp [State.account, setThr, Sched.payAndEnter, Sched.setMoney, hs']
  | @pay u call c next hpc hc hg =>
    cases ha
    have hu := hskip rfl
    obtain ⟨hplain, hs', hok'⟩ := hok.plain hpc (by rcases hc with rfl | rfl <;> decide)
      (by rcases hc with rfl | rfl <;> decide) hu
    have hs : (s.thr t).pc.inSync = false :=
      Pc.inSync_of_not_isSync hpc (by rcases hc with rfl | rfl <;> simpa [Stmt.plain] using hplain)
    refine ⟨?_, by simpa [setThr] using hok'⟩
    have hmove := Account.Move.pay (x := s.account t) hs (isOpen_of_gate hg)
    convert hmove using 1
    simp [State.account, setThr, Sched.pay, Sched.setMoney, hs']
  | @skip u call c next hpc hc =>
    cases ha
    obtain ⟨-, hs', hok'⟩ := hok.plain hpc (by rcases hc with rfl | rfl <;> decide)
      (by rcases hc with rfl | rfl <;> decide) (hskip rfl)
    exact ⟨moved_of_account_eq (by simp [State.account, setThr, hs']), by simpa [setThr] using hok'⟩
  | @leave u call next hpc =>
    cases ha
    obtain ⟨hs, hs', hok'⟩ := hok.leave hpc
    refine ⟨?_, by simpa [setThr] using hok'⟩
    have hmove := Account.Move.leave (x := s.account t) hs
    convert hmove using 1
    simp [State.account, setThr, Sched.afterSyncOperation, Sched.setMoney, hs']
  | @log u call lc next log l hpc hpend hlog =>
    cases ha
    obtain ⟨-, hs', hok'⟩ := hok.plain hpc (by simp) (by simp) (hskip rfl)
    exact ⟨moved_of_account_eq (by simp [State.account, setThr, hs']), by simpa [setThr] using hok'⟩
  | @store u log l hlog =>
    cases ha
    exact ⟨moved_of_account_eq (by simp [State.account, setThr]), by simpa [setThr] using hok⟩
  | @inside u call hpc hpend =>
    cases ha
    exact ⟨moved_of_account_eq (by simp [State.account, setThr, hpc, Pc.inSync]), by simp [setThr, Pc.Ok]⟩
  | @idle u call hpc hpend =>
    cases ha
    rw [hpc] at hok
    have hs : (s.thr t).pc.inSync = false := by
      rw [hpc]
      simp [Pc.inSync, hok.not_isUnlock]
    have hs' : Pc.idle.inSync = false := rfl
    exact ⟨moved_of_account_eq (by simp [State.account, setThr, hs, hs']), by simp [setThr, Pc.Ok]⟩
  | @real u r call hpc =>
    cases ha
    have hok' : (Pc.after call (call.after r)).Ok cfg.log := Or.inl ⟨r, rfl⟩
    have hs : (s.thr t).pc.inSync = call.op.isSync := by
      rw [hpc]
      rfl
    exact ⟨moved_of_account_eq (by simp [State.account, setThr, hs, Pc.inSync_after]), by simpa [setThr] using hok'⟩
  | supervise h => cases ha

end Schnauzer
