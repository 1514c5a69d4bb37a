import Schnauzer.Core.InterfaceLog

/-!
# What the hooks log

The call that logs an operation: in the hook before it or in the hook after it, right behind the call into the
scheduler. `pthread_create` reserves its slot before and logs after. All other calls of the logger log
accesses.

## What is proved

* `Call.before_of_logs`, `Call.after_of_logs` — the hooks of the operations that synchronise.
* `Logger.exec_form` — the five things that a call of the logger may do, if no `assert` stops the program.
-/

namespace Schnauzer

/-- The call that logs an operation before it happens. -/
def Op.logsBefore : Op → Option LogCall
  | .create => some (.startBatch 1)
  | .mutexUnlock m => some (.logSyncOpEvent .unlock m)
  | .condWait c m | .condTimedwait c m => some (.logCondWaitEvent m c)
  | .condSignal c => some (.logSyncOpEvent .signal c)
  | .condBroadcast c => some (.logSyncOpEvent .broadcast c)
  | _ => none

/-- The call that logs an operation after it has happened; `r` is the thread created or joined. -/
def Op.logsAfter (r : ℕ) : Op → Option LogCall
  | .create => some (.logThreadCreateEvent r)
  | .join _ => some (.logThreadJoinEvent r)
  | .mutexLock m | .mutexDestroy m => some (.logSyncOpEvent .lock m)
  | .mutexTrylock m => some (.logSyncOpEvent .trylock m)
  | .condWait c m | .condTimedwait c m => some (.logCondAwakeEvent m c)
  | _ => none

/-- The calls that log accesses. -/
def LogCall.isAccess : LogCall → Bool
  | .logVarAccessEvent ty _ | .logArrayAccessEvent ty _ _ => ty = .ld || ty = .st
  | .startBatchFor _ => true
  | _ => false

/-- The access that a call logs is to an address of the stack. -/
def LogCall.onStack (isOnStack : Addr → Bool) : LogCall → Bool
  | .logVarAccessEvent _ addr | .logArrayAccessEvent _ addr _ => isOnStack addr
  | _ => false

namespace Call

open ScScheduler

variable {cfg : LogConfig} {call : Call} {lc : LogCall} {r : ℕ}

theorem before_of_logs (cfg : LogConfig) (h : call.op.logsBefore = some lc) :
    ∃ c, call.before cfg = [.scs c, .log lc] := by
  obtain ⟨op, inst, st, sl⟩ := call
  cases op with
  | create | mutexUnlock | condWait | condTimedwait | condSignal | condBroadcast =>
    cases h
    exact ⟨_, rfl⟩
  | _ => cases h

theorem after_of_logs (h : call.op.logsAfter r = some lc) (hop : call.op ≠ .create) :
    ∃ c, call.after r = [.scs c, .log lc] := by
  obtain ⟨op, inst, st, sl⟩ := call
  cases op with
  | create => exact absurd rfl hop
  | join | mutexLock | mutexTrylock | mutexDestroy | condWait | condTimedwait =>
    cases h
    exact ⟨_, rfl⟩
  | _ => cases h

theorem after_of_create (h : call.op = .create) : call.after r =
    [.scs .afterSyncOperation, .log (.logThreadCreateEvent r), .log .endBatch] := by
  obtain ⟨op, inst, st, sl⟩ := call
  cases h
  rfl

theorem not_mem_after (h : call.op.logsAfter r = none) : .log lc ∉ call.after r := by
  obtain ⟨op, inst, st, sl⟩ := call
  cases op with
  | create | join | mutexLock | mutexTrylock | mutexDestroy | condWait | condTimedwait => cases h
  | _ => simp [after, afterPthreadMutexUnlock, afterPthreadCondSignal, afterPthreadCondBroadcast]

theorem mem_accesses {xs : List Access} (hxs : ∀ x ∈ xs, x.ty = .ld ∨ x.ty = .st)
    (h : .log lc ∈ xs.map Access.log) : lc.isAccess := by
  obtain ⟨x, hx, heq⟩ := List.mem_map.mp h
  cases heq
  simpa [LogCall.isAccess] using hxs x hx

theorem mem_logBatch {batch : List Addr} {xs : List Access} (hxs : ∀ x ∈ xs, x.ty = .ld ∨ x.ty = .st)
    (h : .log lc ∈ logBatch cfg batch xs) : lc.isAccess ∨ lc = .endBatch := by
  unfold logBatch at h
  split_ifs at h with hlibc
  swap
  · cases h
  rcases List.mem_cons.mp h with heq | h
  · cases heq
    exact Or.inl rfl
  · rcases List.mem_append.mp h with h | h
    · exact Or.inl (mem_accesses hxs h)
    · cases List.mem_singleton.mp h
      exact Or.inr rfl

theorem mem_logOne {x : Access} (hx : x.ty = .ld ∨ x.ty = .st) (h : .log lc ∈ logOne cfg x) :
    lc.isAccess := by
  unfold logOne at h
  split_ifs at h with hlibc
  swap
  · cases h
  exact @mem_accesses lc [x] (by simpa using hx) h

/-- Everything else that a hook logs is an access. -/
theorem access_of_before (h : call.op.logsBefore = none) (hmem : .log lc ∈ call.before cfg) :
    lc.isAccess ∨ lc = .endBatch := by
  obtain ⟨op, inst, st, sl⟩ := call
  cases op with
  | create | mutexUnlock | condWait | condTimedwait | condSignal | condBroadcast => cases h
  | memchr | strchr | strlen | strrchr => exact Or.inl (mem_logOne (Or.inl rfl) hmem)
  | memcmp | strcmp | strncmp | strcspn | strpbrk | strspn | memcpy | memmove | strcpy | strncpy | strstr
  | strcat | strncat => exact mem_logBatch (by simp) hmem
  | load | store =>
    simp only [before, beforeLoad, beforeStore] at hmem
    split_ifs at hmem
    · cases hmem
    · cases List.mem_singleton.mp hmem
      exact Or.inl rfl
  | free | memset =>
    cases List.mem_singleton.mp hmem
    exact Or.inl rfl
  | enterCall | leaveCall | join | mutexLock | mutexTrylock | mutexDestroy =>
    cases List.mem_singleton.mp hmem
  | _ => cases hmem

end Call

/-! ### The calls of the logger -/

namespace Logger

/-- What a call may do to the log and to the thread's part of it. -/
inductive Form (inst tid : ℕ) (lc : LogCall) (st : LogState) (l : LogLocal) : LogState → LogLocal → Prop where
  /-- An event in a slot of its own. -/
  | event (mk : ℕ → Event) (hmk : lc.makers inst tid = [mk]) (hin : inBatch l = false) :
      Form inst tid lc st l (fetchAdd 1 st)
        { l with drawn := [st.logSz], pend := [(st.logSz, mk st.logSz)] }
  /-- Two events. -/
  | pair (mk mk' : ℕ → Event) (hmk : lc.makers inst tid = [mk, mk']) :
      Form inst tid lc st l (fetchAdd 2 st)
        { l with
          pend := [(st.logSz, mk st.logSz), (st.logSz + 1, mk' (st.logSz + 1))]
          drawn := [st.logSz, st.logSz + 1] }
  /-- A batch. -/
  | batch (nr : ℕ) (hlc : lc = .startBatch nr ∨ ∃ addrs, lc = .startBatchFor addrs) :
      Form inst tid lc st l (fetchAdd nr st) (openBatch nr st l).2
  /-- An event of a batch. -/
  | batched (mk : ℕ → Event) (hmk : lc.makers inst tid = [mk]) (hin : inBatch l = true)
      (hlt : l.batchPos < l.batchSz) :
      Form inst tid lc st l st
        { l with
          batchPos := l.batchPos + 1
          drawn := l.drawn ++ [l.batchId + l.batchPos]
          pend := [(l.batchId + l.batchPos, mk (l.batchId + l.batchPos))] }
  /-- Nothing is logged. -/
  | still (l' : LogLocal) (hpend : l'.pend = l.pend) (hbatch : inBatch l' = true →
      inBatch l = true ∧ l'.batchId = l.batchId ∧ l'.batchPos = l.batchPos ∧ l'.batchSz = l.batchSz)
      (hlc : lc = .endBatch ∨ (∃ addrs, lc = .startBatchFor addrs) ∨
        ∃ ty addr len, lc = .logVarAccessEvent ty addr ∨ lc = .logArrayAccessEvent ty addr len) : Form inst tid lc st l st l'

variable {cfg : LogConfig} {isOnStack : Addr → Bool} {inst tid : ℕ} {st : LogState} {l : LogLocal} {lc : LogCall}

/-- An access to the stack is not logged. -/
theorem exec_onStack (h : lc.onStack isOnStack = true) : exec cfg isOnStack inst tid st l lc = (st, l) := by
  cases lc with
  | logVarAccessEvent | logArrayAccessEvent => exact if_pos (Or.inr h)
  | _ => cases h

theorem logEvent_form {mk : ℕ → Event} (hmk : lc.makers inst tid = [mk])
    (hab : (logEvent mk st l).1.aborted = none) :
    Form inst tid lc st l (logEvent mk st l).1 (logEvent mk st l).2 := by
  unfold logEvent at hab ⊢
  cases hin : inBatch l with
  | false =>
    simp only [hin, Bool.false_eq_true, if_false] at hab ⊢
    split_ifs at hab ⊢
    · exact .event mk hmk hin
    · cases hab
  | true =>
    simp only [hin, if_true] at hab ⊢
    split_ifs at hab ⊢ with hlt
    · exact .batched mk hmk hin hlt
    · cases hab
    · cases hab

theorem logPair_form {mk mk' : ℕ → Event} (hmk : lc.makers inst tid = [mk, mk'])
    (hab : (logPair mk mk' st l).1.aborted = none) :
    Form inst tid lc st l (logPair mk mk' st l).1 (logPair mk mk' st l).2 := by
  unfold logPair at hab ⊢
  dsimp only at hab ⊢
  split_ifs at hab ⊢
  · exact .pair mk mk' hmk
  · cases hab

/-- **A call of the logger** that no `assert` stops. -/
theorem exec_form (hen : cfg.enable = true) (hab : (exec cfg isOnStack inst tid st l lc).1.aborted = none) :
    Form inst tid lc st l (exec cfg isOnStack inst tid st l lc).1
      (exec cfg isOnStack inst tid st l lc).2 := by
  have same : inBatch l = true → inBatch l = true ∧ l.batchId = l.batchId ∧ l.batchPos = l.batchPos ∧
      l.batchSz = l.batchSz := fun h => ⟨h, rfl, rfl, rfl⟩
  cases lc with
  | startBatch nr =>
    simp only [exec, startBatch, hen, not_true_eq_false, if_false] at hab ⊢
    split_ifs at hab ⊢
    · exact .batch nr (Or.inl rfl)
    · cases hab
  | startBatchFor addrs =>
    simp only [exec, startBatchFor, hen, not_true_eq_false, if_false] at hab ⊢
    split_ifs at hab ⊢
    · exact .batch _ (Or.inr ⟨addrs, rfl⟩)
    · exact .still _ rfl same (Or.inr (Or.inl ⟨addrs, rfl⟩))
    · cases hab
  | endBatch =>
    simp only [exec, endBatch, hen, not_true_eq_false, if_false] at hab ⊢
    split_ifs at hab ⊢
    · exact .still _ rfl (fun h => by simp [inBatch] at h) (Or.inl rfl)
    · cases hab
  | logVarAccessEvent ty addr =>
    simp only [exec, hen, not_true_eq_false, false_or] at hab ⊢
    split_ifs at hab ⊢
    · exact .still _ rfl same (Or.inr (Or.inr ⟨ty, addr, 0, Or.inl rfl⟩))
    · exact logEvent_form rfl hab
  | logArrayAccessEvent ty addr len =>
    simp only [exec, hen, not_true_eq_false, false_or] at hab ⊢
    split_ifs at hab ⊢
    · exact .still _ rfl same (Or.inr (Or.inr ⟨ty, addr, len, Or.inr rfl⟩))
    · exact logEvent_form rfl hab
  | logSyncOpEvent ty addr =>
    simp only [exec, hen, not_true_eq_false, if_false] at hab ⊢
    exact logEvent_form rfl hab
  | logThreadCreateEvent u =>
    simp only [exec, hen, not_true_eq_false, if_false] at hab ⊢
    split_ifs at hab ⊢
    · exact logEvent_form rfl hab
    · cases hab
  | logThreadJoinEvent u =>
    simp only [exec, hen, not_true_eq_false, if_false] at hab ⊢
    exact logEvent_form rfl hab
  | logCondWaitEvent m c =>
    simp only [exec, hen, not_true_eq_false, if_false] at hab ⊢
    exact logPair_form rfl hab
  | logCondAwakeEvent m c =>
    simp only [exec, hen, not_true_eq_false, if_false] at hab ⊢
    exact logPair_form rfl hab

end Logger

/-! ### Calls that log what synchronises -/

/-- The calls that reserve the slots of an operation that synchronises. -/
def LogCall.isSync : LogCall → Bool
  | .startBatch nr => nr = 1
  | .logSyncOpEvent _ _ | .logThreadJoinEvent _ | .logCondWaitEvent _ _ | .logCondAwakeEvent _ _ => true
  | _ => false

theorem isSync_of_logsBefore {op : Op} {lc : LogCall} (h : op.logsBefore = some lc) : lc.isSync := by
  cases op <;> cases h <;> rfl

theorem isSync_of_logsAfter {op : Op} {r : ℕ} {lc : LogCall} (h : op.logsAfter r = some lc)
    (hop : op ≠ .create) : lc.isSync := by
  cases op <;> cases h <;> first | rfl | exact absurd rfl hop

theorem not_isSync_of_access {lc : LogCall} (h : lc.isAccess ∨ lc = .endBatch) : lc.isSync = false := by
  cases lc with
  | logVarAccessEvent | logArrayAccessEvent | startBatchFor | endBatch | logThreadCreateEvent => rfl
  | _ => rcases h with h | h <;> cases h

/-- No batch is open in front of them. -/
theorem missing_of_isSync {isOnStack : Addr → Bool} {missing b : Option ℕ} {lc : LogCall} (hlc : lc.isSync)
    (h : hookRun isOnStack missing [.log lc] = some b) (hb : lc = .startBatch 1 ∨ b = none) :
    missing = none := by
  have hevent : ∀ {b}, Logger.eventStep missing = some b → b = none → missing = none := by
    intro b hev hb
    cases missing with
    | none => rfl
    | some k =>
      cases k with
      | zero => cases hev
      | succ k =>
        cases hev
        cases hb
  obtain ⟨m, hm, hrest⟩ := Option.bind_eq_some_iff.mp h
  obtain rfl : m = b := Option.some.inj hrest
  cases lc with
  | startBatch | logCondWaitEvent | logCondAwakeEvent =>
    simp only [Logger.batchStep] at hm
    split_ifs at hm with hmiss
    exact hmiss
  | logSyncOpEvent | logThreadJoinEvent => exact hevent hm (hb.resolve_left (by simp))
  | _ => cases hlc

/-- They reserve slots. -/
theorem Logger.Form.lt_of_isSync {inst tid : ℕ} {lc : LogCall} {st st' : LogState} {l l' : LogLocal}
    (h : Form inst tid lc st l st' l') (hlc : lc.isSync) (hin : inBatch l = false) :
    st.logSz < st'.logSz := by
  cases h with
  | event => exact Nat.lt_succ_self _
  | pair => exact Nat.lt_add_of_pos_right (by decide)
  | batch nr hnr =>
    rcases hnr with rfl | ⟨addrs, rfl⟩
    · obtain rfl : nr = 1 := of_decide_eq_true hlc
      exact Nat.lt_succ_self _
    · cases hlc
  | batched mk hmk hin' => exact absurd (hin.symm.trans hin') (by simp)
  | still l' hpend hbatch hstill =>
    rcases hstill with rfl | ⟨addrs, rfl⟩ | ⟨ty, addr, len, rfl | rfl⟩ <;> cases hlc

end Schnauzer
