import Schnauzer.Core.LabelSlots

/-!
# The events in the slots

A slot holds an event of the call for which it was reserved (`Event.LoggedAs`). The two exceptions are batches:
the slot of a `CREATE` is reserved before the thread is created, and the slots of the accesses of one
library function are reserved together.

## What is proved

* `Batches.step` — where the slots of a thread's batch were reserved.
* `Events.step` — which event a slot holds.
-/

namespace Schnauzer

/-- The call that reserves the slot of an event, and which of the slots of the call it is. -/
def Event.LoggedAs (e : Event) (lc : LogCall) (d : ℕ) : Prop :=
  match e.opTy with
  | .create => lc = .startBatch 1 ∧ d = 0
  | .join => lc = .logThreadJoinEvent e.remoteTid ∧ d = 0
  | .trylock => lc = .logSyncOpEvent .trylock e.varAddr ∧ d = 0
  | .lock => (lc = .logSyncOpEvent .lock e.varAddr ∨ ∃ c, lc = .logCondAwakeEvent e.varAddr c) ∧ d = 0
  | .unlock => (lc = .logSyncOpEvent .unlock e.varAddr ∨ ∃ c, lc = .logCondWaitEvent e.varAddr c) ∧ d = 0
  | .signal => lc = .logSyncOpEvent .signal e.varAddr ∧ d = 0
  | .broadcast => lc = .logSyncOpEvent .broadcast e.varAddr ∧ d = 0
  | .wait => (∃ m, lc = .logCondWaitEvent m e.varAddr) ∧ d = 1
  | .awake => (∃ m, lc = .logCondAwakeEvent m e.varAddr) ∧ d = 1
  | .ld | .st => lc.isAccess
  | .call | .other _ => False

namespace Interface

open Logger Runs

variable {cfg : Config} {s s' : State} {a : Action}

/-! ### The events of a call -/

theorem loggedAs_of_access {lc lc' : LogCall} {inst t d : ℕ} (n d' : ℕ) {mk : ℕ → Event} (hlc : lc.isAccess)
    (hmk : (lc.makers inst t)[d]? = some mk) (hlc' : lc'.isAccess) :
    (mk n).LoggedAs lc' d' ∧ (mk n).tid = t ∧ (mk n).opTy ≠ .create := by
  cases lc with
  | logVarAccessEvent ty addr | logArrayAccessEvent ty addr len =>
    cases d with
    | succ d => cases hmk
    | zero =>
      cases hmk
      have hty : ty = .ld ∨ ty = .st := by simpa [LogCall.isAccess] using hlc
      rcases hty with rfl | rfl
      · exact ⟨hlc', rfl, (by intro h; cases h)⟩
      · exact ⟨hlc', rfl, (by intro h; cases h)⟩
  | startBatchFor => cases hmk
  | _ => cases hlc

theorem loggedAs_of_before {op : Op} {lc : LogCall} {inst t n d : ℕ} {mk : ℕ → Event}
    (hlc : op.logsBefore = some lc) (hmk : (lc.makers inst t)[d]? = some mk) :
    (mk n).LoggedAs lc d ∧ (mk n).tid = t ∧ (mk n).opTy ≠ .create := by
  cases op with
  | create =>
    cases hlc
    cases hmk
  | mutexUnlock | condSignal | condBroadcast =>
    cases hlc
    cases d with
    | succ d => cases hmk
    | zero =>
      cases hmk
      refine ⟨?_, rfl, (by intro h; cases h)⟩
      simp [Event.LoggedAs, Event.makeSyncOpEvent]
  | condWait | condTimedwait =>
    cases hlc
    match d with
    | 0 | 1 =>
      cases hmk
      refine ⟨?_, rfl, (by intro h; cases h)⟩
      simp [Event.LoggedAs, Event.makeSyncOpEvent]
    | d + 2 => cases hmk
  | _ => cases hlc

theorem loggedAs_of_after {op : Op} {lc : LogCall} {r inst t n d : ℕ} {mk : ℕ → Event} (hop : op ≠ .create)
    (hlc : op.logsAfter r = some lc) (hmk : (lc.makers inst t)[d]? = some mk) :
    (mk n).LoggedAs lc d ∧ (mk n).tid = t ∧ (mk n).opTy ≠ .create := by
  cases op with
  | create => exact absurd rfl hop
  | join | mutexLock | mutexTrylock | mutexDestroy =>
    cases hlc
    cases d with
    | succ d => cases hmk
    | zero =>
      cases hmk
      refine ⟨?_, rfl, (by intro h; cases h)⟩
      simp [Event.LoggedAs, Event.makeSyncOpEvent, Event.makeThreadEvent]
  | condWait | condTimedwait =>
    cases hlc
    match d with
    | 0 | 1 =>
      cases hmk
      refine ⟨?_, rfl, (by intro h; cases h)⟩
      simp [Event.LoggedAs, Event.makeSyncOpEvent]
    | d + 2 => cases hmk
  | _ => cases hlc

/-! ### Batches -/

namespace State

variable (s)

/-- The slots of a batch were reserved by thread `t` for `lc`. -/
def Batch (t : ℕ) (l : LogLocal) (lc : LogCall) : Prop := l.batchId + l.batchSz ≤ s.log.logSz ∧
  ∀ k, l.batchId ≤ k → k < l.batchId + l.batchSz → s.At (s.place k) t (.log lc l.batchId)

/-- The batch is that of a `CREATE`. -/
def BatchCreate (t : ℕ) (l : LogLocal) : Prop := l.batchSz = 1 ∧ s.Batch t l (.startBatch 1)

/-- And thread `r` has been created with it. -/
def BatchCreated (t : ℕ) (l : LogLocal) (r : ℕ) : Prop :=
  s.BatchCreate t l ∧ ∃ i, s.rep i = some l.batchId ∧ s.At i t (.spawn r)

end State

/-- What the place of thread `t` says about its batch. -/
def BatchPlace (s : State) (t : ℕ) (l : LogLocal) : Pc → Prop
  | .before call _ slot => (call.op = .create → slot = some l.batchId ∧ s.BatchCreate t l) ∧
      (call.op ≠ .create → ∃ addrs, s.Batch t l (.startBatchFor addrs))
  | .atCall call slot => call.op = .create → s.finished = none → slot = some l.batchId ∧ s.BatchCreate t l
  | .done call r _ => call.op = .create → s.finished = none → s.BatchCreated t l r
  | .after call r _ _ => call.op = .create ∧ s.BatchCreated t l r
  | _ => True

/-- The batches of the threads. -/
def Batches (s : State) : Prop := ∀ t, inBatch (s.thr t).log = true → BatchPlace s t (s.thr t).log (s.thr t).pc

theorem Batches.init : Batches init := fun t h => by cases h

/-- The batch variables of a thread. -/
structure SameBatch (l l' : LogLocal) : Prop where
  id : l'.batchId = l.batchId
  sz : l'.batchSz = l.batchSz

section Batch

variable {t : ℕ} {l l' : LogLocal} {lc : LogCall} {pc : Pc}

theorem State.Batch.mono (hrec : Recorded s a s') (hl : SameBatch l l') (h : s.Batch t l lc) : s'.Batch t l' lc := by
  obtain ⟨hle, hat⟩ := h
  unfold State.Batch
  rw [hl.id, hl.sz]
  refine ⟨hle.trans hrec.logSz_le, fun k hk hlt => ?_⟩
  rw [hrec.place_eq (by omega)]
  exact hrec.mono (hat k hk hlt)

theorem State.BatchCreate.mono (hrec : Recorded s a s') (hl : SameBatch l l') (h : s.BatchCreate t l) :
    s'.BatchCreate t l' := ⟨hl.sz.trans h.1, h.2.mono hrec hl⟩

theorem State.BatchCreated.mono {r : ℕ} (hrec : Recorded s a s')
    (hphase : Phase s a.thread (s.thr a.thread).pc) (hl : SameBatch l l') (h : s.BatchCreated t l r) :
    s'.BatchCreated t l' r := by
  obtain ⟨hbatch, i, hrep, hat⟩ := h
  refine ⟨hbatch.mono hrec hl, i, ?_, hrec.mono hat⟩
  rw [hl.id]
  exact hrec.rep_some hphase hat.lt hrep

/-- A thread that stays where it is. -/
theorem BatchPlace.mono (hstep : Stepped cfg s a s') (hphase : Phase s a.thread (s.thr a.thread).pc)
    (hl : SameBatch l l') (h : BatchPlace s t l pc) : BatchPlace s' t l' pc := by
  have hrec := recorded_of_step hstep
  have hfin : s'.finished = none → s.finished = none := fun hf => by
    by_contra hne
    exact finished_mono hstep hne hf
  cases pc with
  | before call todo slot =>
    refine ⟨fun hop => ?_, fun hop => ?_⟩
    · rw [hl.id]
      exact ⟨(h.1 hop).1, (h.1 hop).2.mono hrec hl⟩
    · obtain ⟨addrs, hbatch⟩ := h.2 hop
      exact ⟨addrs, hbatch.mono hrec hl⟩
  | atCall call slot =>
    intro hop hf
    rw [hl.id]
    exact ⟨(h hop (hfin hf)).1, (h hop (hfin hf)).2.mono hrec hl⟩
  | done call r lab => exact fun hop hf => (h hop (hfin hf)).mono hrec hphase hl
  | after call r todo lab => exact ⟨h.1, h.2.mono hrec hphase hl⟩
  | _ => trivial

theorem BatchPlace.took {n : ℕ} (h : BatchPlace s t l pc) : BatchPlace s t l (pc.took n) := by
  cases pc with
  | before call todo slot =>
    refine ⟨fun hop => ⟨?_, (h.1 hop).2⟩, h.2⟩
    rw [(h.1 hop).1]
    rfl
  | _ => exact h

/-- The next call of a hook. -/
theorem BatchPlace.head {next : Pc} {call : Call} {stmt : Stmt} (h : BatchPlace s t l pc)
    (hpc : pc.head = some (call, stmt, next)) : BatchPlace s t l next := by
  rcases Pc.head_cases hpc with ⟨todo, slot, rfl, rfl⟩ | ⟨r, todo, lab, rfl, rfl⟩
  · exact h
  · exact h

end Batch

/-- A thread with an open batch is creating a thread, unless it has found the hooks off. -/
theorem LogInv.create_of_inBatch (h : LogInv s) {t : ℕ} {call : Call} {slot : Option ℕ} {r : ℕ}
    {lab : Option ℕ} (hpc : (s.thr t).pc = .atCall call slot ∨ (s.thr t).pc = .done call r lab)
    (hin : inBatch (s.thr t).log = true) (hfin : s.finished = none) : call.op = .create := by
  have hp := h.place t
  have hm : (s.thr t).log.missing ≠ none := fun hm => absurd ((missing_eq_none.mp hm).symm.trans hin) (by simp)
  have hplace : (s.thr t).log.missing = call.batch := by
    rcases hpc with hpc | hpc <;>
    · rw [hpc] at hp
      rcases hp.2 with hp | hf | ⟨-, hp⟩
      · exact hp
      · exact absurd hfin hf
      · exact absurd hp hm
  by_contra hop
  exact hm (hplace.trans (batch_eq_none hop))

/-- A step of the thread that is none of the logger. -/
theorem BatchPlace.quiet (hinv : LogInv s) (hstep : Stepped cfg s a s') (hq : Quiet s a s')
    (hphase : Phase s a.thread (s.thr a.thread).pc) (hin : inBatch (s.thr a.thread).log = true)
    (h : BatchPlace s a.thread (s.thr a.thread).log (s.thr a.thread).pc) :
    BatchPlace s' a.thread (s.thr a.thread).log (s'.thr a.thread).pc := by
  have hsame : SameBatch (s.thr a.thread).log (s.thr a.thread).log := ⟨rfl, rfl⟩
  have hm : (s.thr a.thread).log.missing ≠ none := fun hm =>
    absurd ((missing_eq_none.mp hm).symm.trans hin) (by simp)
  have hkeep : ∀ {pc : Pc}, BatchPlace s a.thread (s.thr a.thread).log pc →
      BatchPlace s' a.thread (s.thr a.thread).log pc := fun h => h.mono hstep hphase hsame
  have hp := hinv.place a.thread
  cases hstep with
  | @call t call hpc hall =>
    simp only [Action.thread] at hm hp ⊢
    have hfin := enter_finished cfg s t call
    rw [hpc] at hp
    have hf : s.finished ≠ none := hp.2.resolve_left hm
    rcases enter_pc cfg s t call with ⟨-, -, hnone⟩ | ⟨hpc', -⟩
    · exact absurd hnone hf
    · rw [hpc']
      exact fun _ hnone => absurd (hfin.symm.trans hnone) hf
  | @skip t call c next hpend hpc =>
    simp only [Action.thread, State.setPc_self] at h hkeep ⊢
    exact hkeep (h.head hpc)
  | @log t call lc next log l hpend hpc hlog hsz => exact absurd hpc (hq.noLog t _ _ _ rfl)
  | @reserve t call lc next log l hpend hpc hlog hsz => exact absurd hpc (hq.noLog t _ _ _ rfl)
  | @store t log l hlog => exact absurd rfl (hq.noStore t)
  | @atCall t call slot hpend hpc =>
    simp only [Action.thread, State.setPc_self] at h hkeep ⊢
    rw [hpc] at h
    exact @hkeep (.atCall call slot) fun hop _ => h.1 hop
  | @spawn t call slot x hpc hop hlt =>
    simp only [Action.thread, State.setPc_self] at h ⊢
    have hrec := recorded_of_step (@Stepped.spawn cfg s _ _ _ x hpc hop hlt)
    rw [hpc] at h
    intro _ hfin
    obtain ⟨rfl, hbatch⟩ := h hop hfin
    exact ⟨hbatch.mono hrec ⟨rfl, rfl⟩, s.hist.length, Function.update_self _ _ _, at_length rfl⟩
  -- the other operations create no thread
  | @plain t call slot x hpc hop | @joined t u call slot x hpc hop hend | @acquire t m call slot x hpc hop hown
  | @release t m call slot x hpc hop hown | @signal t c call slot x p hpc hop
  | @rwlock t call slot x act writer readers hpc hop hact | @wakeUp t c m call depth cause hpc hop hown =>
    simp only [Action.thread, State.setPc_self]
    intro hcreate
    rw [hcreate] at hop
    cases hop
  | @second t call r lab hpc =>
    simp only [Action.thread, State.setPc_self] at h hkeep hin ⊢
    rw [hpc] at h
    split_ifs with hneed
    · have hfin : s.finished = none := by simpa using (Bool.and_eq_true_iff.mp hneed).2
      have hop := @LogInv.create_of_inBatch s hinv t call none r lab (Or.inr hpc) hin hfin
      rw [if_pos hneed] at hkeep
      exact @hkeep (.after call r (call.after r) lab) ⟨hop, h hop hfin⟩
    · trivial
  | @exit t hpc hc =>
    simp only [Action.thread, beforeExit, State.setPc_self]
    split_ifs <;> trivial
  | @flush t i hpc =>
    simp only [Action.thread]
    exact flushRound_place hpc (fun _ => trivial) trivial
  | idle | wait | leave | finish =>
    simp only [Action.thread, State.setPc_self]
    trivial

/-- Where new slots are reserved. -/
theorem Recorded.place_new (hrec : Recorded s a s') (hlt : s.log.logSz < s'.log.logSz) {k : ℕ}
    (hk : s.log.logSz ≤ k) : s'.place k = s.hist.length := by
  cases hrec with
  | same _ _ _ hsz => exact absurd hsz.symm hlt.ne
  | log _ _ _ hplace =>
    rw [hplace]
    exact if_pos hk
  | act _ _ _ _ _ _ hsz => exact absurd hsz.symm hlt.ne

/-- A reservation of the call that comes next. -/
theorem Recorded.of_lt (hrec : Recorded s a s') {call : Call} {lc : LogCall} {next : Pc}
    (hlt : s.log.logSz < s'.log.logSz) (hpc : (s.thr a.thread).pc.head = some (call, .log lc, next)) :
    s'.hist = s.hist ++ [⟨a.thread, .log lc s.log.logSz⟩] ∧
      (∀ k, s.log.logSz ≤ k → s'.At (s'.place k) a.thread (.log lc s.log.logSz)) ∧
        (s'.thr a.thread).pc = next.took s.log.logSz := by
  have hplace := fun k hk => hrec.place_new hlt (k := k) hk
  cases hrec with
  | same _ _ _ hsz => exact absurd hsz.symm hlt.ne
  | log hpc' hsz hhist _ hrep howner hnext =>
    cases hpc.symm.trans hpc'
    refine ⟨hhist, fun k hk => ?_, hnext⟩
    rw [hplace k hk]
    exact at_length hhist
  | act _ _ _ _ _ _ hsz => exact absurd hsz.symm hlt.ne

/-- Two events are logged outside a batch. -/
theorem LogInv.no_batch_of_pair (h : LogInv s) {t : ℕ} {call : Call} {lc : LogCall} {next : Pc}
    {mk mk' : ℕ → Event} (hpc : (s.thr t).pc.head = some (call, .log lc, next))
    (hmk : lc.makers call.inst t = [mk, mk']) : inBatch (s.thr t).log = false := by
  obtain ⟨b, hb, -⟩ := (h.place t).log hpc
  apply missing_eq_none.mp
  cases lc with
  | logCondWaitEvent | logCondAwakeEvent =>
    simp only [batchStep] at hb
    split_ifs at hb with hmiss
    exact hmiss
  | _ => cases hmk

/-- A call of the logger. -/
theorem BatchPlace.exec {t : ℕ} {call : Call} {lc : LogCall} {next : Pc} {l : LogLocal}
    (hshape : ∀ t, (s.thr t).pc.Shape cfg) (hphase : Phase s t (s.thr t).pc)
    (hstep : Stepped cfg s (.exec t) s') (hpc : (s.thr t).pc.head = some (call, .log lc, next))
    (hform : Form call.inst t lc s.log (s.thr t).log s'.log l)
    (hnext : (s'.thr t).pc = next ∨ (s'.thr t).pc = next.took s.log.logSz) (hin : inBatch l = true)
    (h : inBatch (s.thr t).log = true → BatchPlace s t (s.thr t).log (s.thr t).pc) :
    BatchPlace s' t l (s'.thr t).pc := by
  have hrec := recorded_of_step hstep
  have hkeep : inBatch (s.thr t).log = true → SameBatch (s.thr t).log l → BatchPlace s' t l (s'.thr t).pc := by
    intro hold hl
    have hnext' := ((h hold).head hpc).mono hstep hphase hl
    rcases hnext with heq | heq
    · rw [heq]
      exact hnext'
    · rw [heq]
      exact hnext'.took
  have hbatch : ∀ nr, s'.log = fetchAdd nr s.log → s'.Batch t (openBatch nr s.log (s.thr t).log).2 lc := by
    intro nr hlog
    refine ⟨by rw [hlog]; exact le_rfl, fun k hk hlt => ?_⟩
    have hsz : s.log.logSz < s'.log.logSz := by
      rw [hlog]
      exact (show s.log.logSz ≤ k from hk).trans_lt hlt
    exact (hrec.of_lt hsz hpc).2.1 k hk
  generalize hst : s'.log = st' at hform
  cases hform with
  | event mk hmk hno => exact absurd (hno.symm.trans hin) (by simp)
  | pair mk mk' hmk => exact hkeep hin ⟨rfl, rfl⟩
  | batched mk hmk hold hlt => exact hkeep hold ⟨rfl, rfl⟩
  | still l' hpend hsame hlc =>
    obtain ⟨hold, hid, -, hsz⟩ := hsame hin
    exact hkeep hold ⟨hid, hsz⟩
  | batch nr hlc =>
    rcases (hshape t).log hpc with ⟨todo, slot, heq, rfl, ⟨hlogs, rfl⟩ | ⟨hnone, hacc⟩⟩ |
      ⟨r, todo, lab, heq, rfl, ⟨hop, hlogs, -⟩ | ⟨-, ⟨rfl, -⟩ | ⟨rfl, -⟩⟩⟩
    · obtain ⟨op, inst, onStack, sl⟩ := call
      cases op with
      | create =>
        cases hlogs
        obtain rfl : nr = 1 := by
          rcases hlc with hlc | ⟨addrs, hlc⟩
          · cases hlc
            rfl
          · cases hlc
        have hsz : s.log.logSz < s'.log.logSz := by
          rw [hst]
          exact Nat.lt_succ_self _
        rw [show (s'.thr t).pc = _ from (hrec.of_lt hsz hpc).2.2]
        rw [heq] at hphase
        rcases hphase.2 _ rfl with ⟨rfl, -⟩ | ⟨hnil, -⟩
        · exact ⟨fun _ => ⟨rfl, rfl, hbatch 1 hst⟩, fun hop => absurd rfl hop⟩
        · cases hnil
      | mutexUnlock | condWait | condTimedwait | condSignal | condBroadcast =>
        cases hlogs
        rcases hlc with hlc | ⟨addrs, hlc⟩ <;> cases hlc
      | _ => cases hlogs
    · obtain ⟨addrs, rfl⟩ : ∃ addrs, lc = .startBatchFor addrs := by
        rcases hlc with rfl | hlc
        · rcases hacc with hacc | hacc <;> cases hacc
        · exact hlc
      have hplace : ∀ slot', BatchPlace s' t (openBatch nr s.log (s.thr t).log).2 (.before call todo slot') := by
        refine fun slot' => ⟨fun hop => ?_, fun _ => ⟨addrs, hbatch nr hst⟩⟩
        rw [hop] at hnone
        cases hnone
      rcases hnext with heq' | heq'
      · rw [heq']
        exact hplace _
      · rw [heq']
        exact hplace _
    · obtain ⟨op, inst, onStack, sl⟩ := call
      cases op <;> cases hlogs <;> rcases hlc with hlc | ⟨addrs, hlc⟩ <;> cases hlc
    · rcases hlc with hlc | ⟨addrs, hlc⟩ <;> cases hlc
    · rcases hlc with hlc | ⟨addrs, hlc⟩ <;> cases hlc

/-- **One step**: the batches. -/
theorem Batches.step (h : Batches s) (hinv : LogInv s) (hen : cfg.log.enable = true)
    (hshape : ∀ t, (s.thr t).pc.Shape cfg) (hphase : ∀ t, Phase s t (s.thr t).pc) (hstep : Stepped cfg s a s')
    (hab : s'.log.aborted = none) : Batches s' := by
  intro t hin
  have hother : ∀ u, t ≠ u → u = a.thread → (s'.thr t).log = (s.thr t).log →
      BatchPlace s' t (s'.thr t).log (s'.thr t).pc := by
    rintro u hu rfl hlog
    rw [hlog] at hin ⊢
    have hkeep := (h t hin).mono hstep (hphase _) ⟨rfl, rfl⟩
    rcases thr_of_ne hstep hu with heq | ⟨-, -, -, heq⟩ | ⟨call, depth, i, -, heq⟩
    · rw [heq]
      exact hkeep
    · rw [heq]
      trivial
    · rw [heq]
      trivial
  by_cases ht : t = a.thread
  swap
  · apply hother a.thread ht rfl
    rcases thr_of_ne hstep ht with heq | ⟨-, -, -, heq⟩ | ⟨call, depth, i, -, heq⟩ <;> rw [heq]
  rcases log_of_step hstep with hq | ⟨u, call, lc, next, l, rfl, hpend, hpc, hex, hl, -, hnext⟩ |
    ⟨u, l, rfl, hst, hl, -, hpc⟩
  · subst ht
    rw [hq.loc] at hin ⊢
    exact (h _ hin).quiet hinv hstep hq (hphase _) hin
  · obtain rfl : t = u := ht
    rw [hl] at hin ⊢
    exact BatchPlace.exec hshape (hphase t) hstep hpc (form_of_exec hen hab hex) hnext hin (h t)
  · obtain rfl : t = u := ht
    obtain ⟨n, e, pend, -, -, rfl⟩ := store_eq hst
    rw [hl] at hin ⊢
    rw [hpc]
    exact (h t hin).mono hstep (hphase _) ⟨rfl, rfl⟩

/-! ### Events -/

/-- Event `e` is in slot `n`, or its thread is about to store it there. -/
def State.Evt (s : State) (n : ℕ) (e : Event) : Prop :=
  s.log.events n = some e ∨ ∃ t, (n, e) ∈ (s.thr t).log.pend

/-- The step calls the logger, which is about to store event `e` in slot `n`. -/
structure Logged (cfg : Config) (s : State) (a : Action) (s' : State) (n : ℕ) (e : Event) (t : ℕ) (call : Call) (lc : LogCall) :
    Prop where
  action : a = .exec t
  pend : (s.thr t).log.pend = []
  head : ∃ next, (s.thr t).pc.head = some (call, .log lc, next)
  onStack : lc.onStack call.isOnStack = false
  exec : Logger.exec cfg.log call.isOnStack call.inst t s.log (s.thr t).log lc = (s'.log, (s'.thr t).log)
  made : (n, e) ∈ (s'.thr t).log.pend

/-- An event that a call of the logger leaves to be stored. -/
theorem logged_of_pend {t n : ℕ} {e : Event} {call : Call} {lc : LogCall} {next : Pc}
    (hpend : (s.thr t).log.pend = []) (hpc : (s.thr t).pc.head = some (call, .log lc, next))
    (hex : Logger.exec cfg.log call.isOnStack call.inst t s.log (s.thr t).log lc = (s'.log, (s'.thr t).log))
    (hmem : (n, e) ∈ (s'.thr t).log.pend) : Logged cfg s (.exec t) s' n e t call lc := by
  refine ⟨rfl, hpend, ⟨next, hpc⟩, Bool.eq_false_of_not_eq_true fun hon => ?_, hex, hmem⟩
  rw [exec_onStack hon] at hex
  have hsame : (s.thr t).log = (s'.thr t).log := congrArg Prod.snd hex
  rw [← hsame, hpend] at hmem
  cases hmem

/-- **New events** come from calls of the logger. -/
theorem evt_of_step (hstep : Stepped cfg s a s') {n : ℕ} {e : Event} (h : s'.Evt n e) :
    s.Evt n e ∨ ∃ t call lc, Logged cfg s a s' n e t call lc := by
  rcases log_of_step hstep with hq | ⟨t, call, lc, next, l, rfl, hpend, hpc, hex, hl, hother, -⟩ |
    ⟨t, l, rfl, hst, hl, hother, -⟩
  · refine Or.inl (h.imp ?_ ?_)
    · rw [hq.events]
      exact id
    · rintro ⟨t, ht⟩
      exact ⟨t, by rwa [hq.loc] at ht⟩
  · have hev := exec_events cfg.log call.isOnStack call.inst t s.log (s.thr t).log lc
    rw [hex] at hev
    rcases h with h | ⟨u, hu⟩
    · exact Or.inl (Or.inl (hev ▸ h))
    by_cases hut : u = t
    swap
    · rw [hother u hut] at hu
      exact Or.inl (Or.inr ⟨u, hu⟩)
    subst hut
    subst hl
    exact Or.inr ⟨u, call, lc, logged_of_pend hpend hpc hex hu⟩
  · obtain ⟨m, f, pend, hp, hev, rfl⟩ := store_eq hst
    apply Or.inl
    rcases h with h | ⟨u, hu⟩
    · rw [hev] at h
      by_cases hn : n = m
      · subst hn
        rw [Function.update_self] at h
        cases h
        exact Or.inr ⟨t, by rw [hp]; exact List.mem_cons_self⟩
      · rw [Function.update_of_ne hn] at h
        exact Or.inl h
    · by_cases hut : u = t
      · subst hut
        rw [hl] at hu
        exact Or.inr ⟨u, by rw [hp]; exact List.mem_cons_of_mem _ hu⟩
      · rw [hother u hut] at hu
        exact Or.inr ⟨u, hu⟩

/-- Which call reserved the slot of an event; the `CREATE` of a thread is in the slot of its creation. -/
def Fits (s : State) (n : ℕ) (e : Event) : Prop :=
  n < s.log.logSz ∧ (∃ lc f, f ≤ n ∧ s.At (s.place n) e.tid (.log lc f) ∧ e.LoggedAs lc (n - f)) ∧
    (e.opTy = .create → ∃ i, s.rep i = some n ∧ s.At i e.tid (.spawn e.remoteTid))

/-- The events and their slots. -/
def Events (s : State) : Prop := ∀ n e, s.Evt n e → Fits s n e

theorem Events.init : Events init := by
  rintro n e (h | ⟨t, h⟩)
  · cases h
  · cases h

theorem Fits.mono (hrec : Recorded s a s') (hphase : Phase s a.thread (s.thr a.thread).pc) {n : ℕ} {e : Event}
    (h : Fits s n e) : Fits s' n e := by
  obtain ⟨hn, ⟨lc, f, hf, hat, hlog⟩, hcreate⟩ := h
  refine ⟨hn.trans_le hrec.logSz_le, ⟨lc, f, hf, ?_, hlog⟩, fun hop => ?_⟩
  · rw [hrec.place_eq hn]
    exact hrec.mono hat
  · obtain ⟨i, hrep, hi⟩ := hcreate hop
    exact ⟨i, hrec.rep_some hphase hi.lt hrep, hrec.mono hi⟩

section New

variable {t n : ℕ} {e : Event} {call : Call} {lc : LogCall}

/-- An event that a call logs outside a batch, in the slots that the call reserves. -/
theorem loggedAs_of_single (hinv : LogInv s) (hshape : ∀ t, (s.thr t).pc.Shape cfg) {next : Pc}
    (hpc : (s.thr t).pc.head = some (call, .log lc, next)) (hno : inBatch (s.thr t).log = false) {d : ℕ}
    {mk : ℕ → Event} (hmk : (lc.makers call.inst t)[d]? = some mk) :
    (mk n).LoggedAs lc d ∧ (mk n).tid = t ∧ (mk n).opTy ≠ .create := by
  rcases (hshape t).log hpc with ⟨todo, slot, -, -, ⟨hlogs, -⟩ | ⟨-, hacc | rfl⟩⟩ |
    ⟨r, todo, lab, -, -, ⟨hop, hlogs, -⟩ | ⟨-, ⟨rfl, -⟩ | ⟨rfl, -⟩⟩⟩
  · exact loggedAs_of_before hlogs hmk
  · exact loggedAs_of_access n d hacc hmk hacc
  · cases hmk
  · exact loggedAs_of_after hop hlogs hmk
  · -- a `CREATE` is logged in a batch
    obtain ⟨b, hb, -⟩ := (hinv.place t).log hpc
    rw [missing_eq_none.mpr hno] at hb
    cases hb
  · cases hmk

/-- The event of a batch, in a slot of the batch. -/
theorem fits_of_batched (hinv : LogInv s) (hshape : ∀ t, (s.thr t).pc.Shape cfg) (hbatches : Batches s)
    (hphase : Phase s a.thread (s.thr a.thread).pc) (hrec : Recorded s a s') {next : Pc}
    (hpc : (s.thr t).pc.head = some (call, .log lc, next)) (hin : inBatch (s.thr t).log = true)
    (hlt : (s.thr t).log.batchPos < (s.thr t).log.batchSz) {mk : ℕ → Event}
    (hmk : lc.makers call.inst t = [mk]) :
    Fits s' ((s.thr t).log.batchId + (s.thr t).log.batchPos)
      (mk ((s.thr t).log.batchId + (s.thr t).log.batchPos)) := by
  have hplace := hbatches t hin
  have hslot : ∀ {lc' : LogCall}, s.Batch t (s.thr t).log lc' →
      (s.thr t).log.batchId + (s.thr t).log.batchPos < s.log.logSz ∧
        s.At (s.place ((s.thr t).log.batchId + (s.thr t).log.batchPos)) t (.log lc' (s.thr t).log.batchId) :=
    fun hb => ⟨by have := hb.1; omega, hb.2 _ (Nat.le_add_right _ _) (by omega)⟩
  apply Fits.mono hrec hphase
  rcases (hshape t).log hpc with ⟨todo, slot, heq, -, ⟨hlogs, rfl⟩ | ⟨hnone, hacc | rfl⟩⟩ |
    ⟨r, todo, lab, heq, -, ⟨hop, -⟩ | ⟨hop, ⟨rfl, -⟩ | ⟨rfl, -⟩⟩⟩
  · -- what synchronises is logged outside a batch
    have hp := hinv.place t
    rw [heq] at hp
    have hop : call.op ≠ .create := by
      intro hop
      rw [hop] at hlogs
      cases hlogs
      cases hmk
    have hmiss := missing_of_isSync (isSync_of_logsBefore hlogs) hp (Or.inr (batch_eq_none hop))
    exact absurd ((missing_eq_none.mp hmiss).symm.trans hin) (by simp)
  · rw [heq] at hplace
    obtain ⟨addrs, hb⟩ := hplace.2 fun hop => by rw [hop] at hnone; cases hnone
    obtain ⟨hn, hat⟩ := hslot hb
    have hmk' : (lc.makers call.inst t)[0]? = some mk := by rw [hmk]; rfl
    obtain ⟨hlog, htid, hty⟩ := loggedAs_of_access ((s.thr t).log.batchId + (s.thr t).log.batchPos)
      ((s.thr t).log.batchId + (s.thr t).log.batchPos - (s.thr t).log.batchId) hacc hmk'
      (show (LogCall.startBatchFor addrs).isAccess from rfl)
    exact ⟨hn, ⟨_, _, Nat.le_add_right _ _, by rw [htid]; exact hat, hlog⟩, fun h => absurd h hty⟩
  · cases hmk
  · rw [heq] at hplace
    exact absurd hplace.1 hop
  · rw [heq] at hplace
    obtain ⟨-, ⟨hsz, hb⟩, i, hrep, hi⟩ := hplace
    obtain ⟨hn, hat⟩ := hslot hb
    obtain rfl : mk = fun ts => .makeThreadEvent call.inst ts t .create r :=
      (List.singleton_inj.mp hmk).symm
    have hpos : (s.thr t).log.batchPos = 0 := by omega
    rw [hpos] at hn hat ⊢
    refine ⟨hn, ⟨_, _, Nat.le_add_right _ _, hat, rfl, ?_⟩, fun _ => ⟨i, hrep, hi⟩⟩
    omega
  · cases hmk

/-- The event is one of the call. -/
theorem Logged.maker (h : Logged cfg s a s' n e t call lc) : ∃ mk ∈ lc.makers call.inst t, e = mk n := by
  have hmade := h.made
  rw [show (s'.thr t).log = _ from (congrArg Prod.snd h.exec).symm] at hmade
  exact (exec_pend cfg.log call.isOnStack call.inst t s.log lc h.pend _ hmade).2

/-- **A new event** is in a slot of its call. -/
theorem Logged.fits (h : Logged cfg s a s' n e t call lc) (hinv : LogInv s) (hen : cfg.log.enable = true)
    (hab : s'.log.aborted = none) (hshape : ∀ t, (s.thr t).pc.Shape cfg)
    (hbatches : Batches s) (hphase : Phase s a.thread (s.thr a.thread).pc) (hrec : Recorded s a s') :
    Fits s' n e := by
  obtain ⟨rfl, hpend, ⟨next, hpc⟩, -, hex, hmade⟩ := h
  have hform := form_of_exec hen hab hex
  have hown : ∀ {d : ℕ} {mk : ℕ → Event}, s.log.logSz + d < s'.log.logSz → inBatch (s.thr t).log = false →
      (lc.makers call.inst t)[d]? = some mk → Fits s' (s.log.logSz + d) (mk (s.log.logSz + d)) := by
    intro d mk hlt hno hmk
    obtain ⟨-, hat, -⟩ := hrec.of_lt ((Nat.le_add_right _ _).trans_lt hlt) hpc
    obtain ⟨hlog, htid, hty⟩ := loggedAs_of_single (n := s.log.logSz + d) hinv hshape hpc hno hmk
    refine ⟨hlt, ⟨lc, s.log.logSz, Nat.le_add_right _ _, ?_, ?_⟩, fun h => absurd h hty⟩
    · rw [htid]
      exact hat _ (Nat.le_add_right _ _)
    · rwa [Nat.add_sub_cancel_left]
  generalize hst : s'.log = st' at hform
  generalize hl : (s'.thr t).log = l' at hform hmade
  cases hform with
  | event mk hmk hno =>
    obtain ⟨rfl, rfl⟩ := Prod.mk.inj (List.mem_singleton.mp hmade)
    exact @hown 0 mk (by rw [hst]; exact Nat.lt_succ_self _) hno (by rw [hmk]; rfl)
  | pair mk mk' hmk =>
    have hno := hinv.no_batch_of_pair hpc hmk
    rcases List.mem_cons.mp hmade with heq | hmade
    · obtain ⟨rfl, rfl⟩ := Prod.mk.inj heq
      exact @hown 0 mk (by rw [hst]; exact Nat.lt_add_of_pos_right (by decide)) hno (by rw [hmk]; rfl)
    · obtain ⟨rfl, rfl⟩ := Prod.mk.inj (List.mem_singleton.mp hmade)
      exact @hown 1 mk' (by rw [hst]; exact Nat.lt_succ_self _) hno (by rw [hmk]; rfl)
  | batched mk hmk hin hlt =>
    obtain ⟨rfl, rfl⟩ := Prod.mk.inj (List.mem_singleton.mp hmade)
    exact fits_of_batched hinv hshape hbatches hphase hrec hpc hin hlt hmk
  | batch nr hlc =>
    rw [show (openBatch nr s.log (s.thr t).log).2.pend = (s.thr t).log.pend from rfl, hpend] at hmade
    cases hmade
  | still l' hpend' hsame hlc =>
    rw [hpend', hpend] at hmade
    cases hmade

end New

/-- **One step**: the events. -/
theorem Events.step (h : Events s) (hinv : LogInv s) (hen : cfg.log.enable = true)
    (hshape : ∀ t, (s.thr t).pc.Shape cfg) (hphase : ∀ t, Phase s t (s.thr t).pc) (hbatches : Batches s)
    (hstep : Stepped cfg s a s') (hab : s'.log.aborted = none) : Events s' := by
  have hrec := recorded_of_step hstep
  intro n e he
  rcases evt_of_step hstep he with he | ⟨t, call, lc, hlog⟩
  · exact (h n e he).mono hrec (hphase _)
  · exact hlog.fits hinv hen hab hshape hbatches (hphase _) hrec

end Interface

end Schnauzer
