import Schnauzer.Core.ClockOrder

/-!
# Accesses under a lock

A byte whose accesses are all logged by threads that own one mutex. Between the slots of two such accesses of
different threads the first thread has logged an `UNLOCK` of the mutex, and then the second a `LOCK`, so that the
trace orders the accesses.

## What is proved

* `Logged.last` — a thread has done nothing since it reserved the slot of an access.
* `LockInv.step` — the release and the acquisition between two accesses.
* `happensBefore_of_locked` — the accesses in the file are ordered.
* `locked_not_reported` — **no pair on the byte is reported.**
-/

namespace Schnauzer

/-- The call logs an access to byte `a`. -/
def LogCall.covers (isOnStack : Addr → Bool) (a : Addr) : LogCall → Bool
  | .logVarAccessEvent _ addr => !isOnStack addr && bytesCover addr 1 a
  | .logArrayAccessEvent _ addr len => !isOnStack addr && bytesCover addr len a
  | _ => false

namespace Interface

open Logger Runs

variable {cfg : Config} {s s' : State} {act : Action}

/-- An access to byte `a` is logged only by a thread that owns mutex `m`. -/
def Guarded (m a : Addr) (s : State) (act : Action) : Prop :=
  ∀ x ∈ s.calls act, x.2.covers x.1.isOnStack a → s.owner m = some act.thread

instance (m a : Addr) (s : State) (act : Action) : Decidable (Guarded m a s act) :=
  inferInstanceAs (Decidable (∀ x ∈ s.calls act, _))

/-! ### The slots of a batch -/

/-- In the hook before an operation a thread has done nothing since it reserved the slots of its batch. -/
def BatchLast (s : State) : Prop := ∀ t call todo slot, (s.thr t).pc = .before call todo slot →
  inBatch (s.thr t).log = true → ∀ k, (s.thr t).log.batchId ≤ k →
    k < (s.thr t).log.batchId + (s.thr t).log.batchSz → s.Last t (s.place k)

theorem BatchLast.init : BatchLast init := fun t call todo slot _ h => by cases h

/-- The slots of a batch have been reserved. -/
theorem Batches.lt_logSz (h : Batches s) {t k : ℕ} {call : Call} {todo : List Stmt} {slot : Option ℕ}
    (hpc : (s.thr t).pc = .before call todo slot) (hin : inBatch (s.thr t).log = true)
    (hk : k < (s.thr t).log.batchId + (s.thr t).log.batchSz) : k < s.log.logSz := by
  have hplace := h t hin
  rw [hpc] at hplace
  by_cases hop : call.op = .create
  · exact hk.trans_le (hplace.1 hop).2.2.1
  · obtain ⟨addrs, hb⟩ := hplace.2 hop
    exact hk.trans_le hb.1

/-- A thread to which nothing happens. -/
theorem BatchLast.keep (h : BatchLast s) (hbatches : Batches s) {t : ℕ} (hkeep : Keeps s s' t) {call : Call}
    {todo : List Stmt} {slot : Option ℕ} (hpc : (s.thr t).pc = .before call todo slot)
    (hl : SameBatch (s.thr t).log (s'.thr t).log) (hin : inBatch (s'.thr t).log = true) {k : ℕ}
    (hk : (s'.thr t).log.batchId ≤ k) (hlt : k < (s'.thr t).log.batchId + (s'.thr t).log.batchSz) :
    s'.Last t (s'.place k) := by
  have hin' : inBatch (s.thr t).log = true := by
    unfold inBatch at hin ⊢
    rwa [hl.id] at hin
  rw [hl.id] at hk
  rw [hl.id, hl.sz] at hlt
  rw [hkeep.place k (hbatches.lt_logSz hpc hin' hlt)]
  exact hkeep.last (h t call todo slot hpc hin' k hk hlt)

/-- A thread comes into the hook before an operation by a call, and stays there by the steps of the hook. -/
theorem before_of_step (hstep : Stepped cfg s act s') {call : Call} {todo : List Stmt} {slot : Option ℕ}
    (h : (s'.thr act.thread).pc = .before call todo slot) :
    (s.thr act.thread).pc = .idle ∧ s.finished = none ∧ (s'.thr act.thread).log = (s.thr act.thread).log ∨
      (∃ todo' slot', (s.thr act.thread).pc = .before call todo' slot') ∧ s'.started = s.started := by
  have hhead : ∀ {u : ℕ} {call' : Call} {stmt : Stmt} {next : Pc} {slot' : Option ℕ},
      (s.thr u).pc.head = some (call', stmt, next) → next = .before call todo slot' →
        ∃ todo' slot', (s.thr u).pc = .before call todo' slot' := by
    intro u call' stmt next slot' hpc hn
    rcases Pc.head_cases hpc with ⟨todo', slot', hp, rfl⟩ | ⟨r, todo', lab, hp, rfl⟩
    · cases hn
      exact ⟨_, _, hp⟩
    · cases hn
  cases hstep with
  | @call t call' hpc hall =>
    simp only [Action.thread] at h ⊢
    rcases enter_pc cfg s t call' with ⟨hpc', -, hfin⟩ | ⟨hpc', -⟩
    · obtain ⟨started, pc, heq⟩ := enter_eq cfg s t call'
      refine Or.inl ⟨hpc, hfin, ?_⟩
      rw [heq]
      exact State.setPc_log_self s t t pc
    · rw [hpc'] at h
      cases h
  | @skip t call' c next hpend hpc =>
    simp only [Action.thread, State.setPc_self] at h
    exact Or.inr ⟨hhead hpc h, rfl⟩
  | @log t call' lc next log l hpend hpc hlog hsz =>
    simp only [Action.thread, State.setPc_self] at h
    exact Or.inr ⟨hhead hpc h, rfl⟩
  | @reserve t call' lc next log l hpend hpc hlog hsz =>
    simp only [Action.thread, State.setPc_self] at h
    refine Or.inr ⟨?_, rfl⟩
    cases next with
    | before call'' todo'' slot'' =>
      cases h
      exact hhead hpc rfl
    | _ => cases h
  | @store t log l hlog =>
    refine Or.inr ⟨⟨todo, slot, ?_⟩, rfl⟩
    simpa [Action.thread, State.setLog] using h
  | @second t call' r lab hpc =>
    simp only [Action.thread, State.setPc_self] at h
    split_ifs at h
  | @exit t hpc hc =>
    simp only [Action.thread, beforeExit, State.setPc_self] at h
    split_ifs at h
  | @flush t i hpc =>
    simp only [Action.thread] at h
    exact absurd h (flushRound_place (P := (· ≠ _)) hpc (fun _ hc => by cases hc) (fun hc => by cases hc))
  | _ =>
    simp only [Action.thread, State.setPc_self] at h
    cases h

/-- A step of the thread. -/
theorem BatchLast.own (h : BatchLast s) (hbatches : Batches s) (hinv : LogInv s) (hen : cfg.log.enable = true)
    (hstep : Stepped cfg s act s') (hab : s'.log.aborted = none) {call : Call} {todo : List Stmt}
    {slot : Option ℕ} (hpc : (s'.thr act.thread).pc = .before call todo slot)
    (hin : inBatch (s'.thr act.thread).log = true) {k : ℕ} (hk : (s'.thr act.thread).log.batchId ≤ k)
    (hlt : k < (s'.thr act.thread).log.batchId + (s'.thr act.thread).log.batchSz) :
    s'.Last act.thread (s'.place k) := by
  have hrec := recorded_of_step hstep
  rcases before_of_step hstep hpc with ⟨hidle, hfin, hlog⟩ | ⟨⟨todo', slot', hpc₀⟩, hst⟩
  · -- a call with an open batch finds the hooks off
    have hp := hinv.place act.thread
    rw [hidle] at hp
    rw [hlog] at hin
    have hno := missing_eq_none.mp (hp.2.resolve_right (not_not.mpr hfin))
    rw [hno] at hin
    cases hin
  have hkeep : s'.hist = s.hist → SameBatch (s.thr act.thread).log (s'.thr act.thread).log →
      s'.Last act.thread (s'.place k) := fun hhist hl =>
    h.keep hbatches (keeps_self hstep hhist hrec hst _) hpc₀ hl hin hk hlt
  have hsame : s'.log.logSz = s.log.logSz → s'.hist = s.hist := hrec.hist_eq (by rw [hpc₀]; rfl)
  rcases log_of_step hstep with hq | ⟨t, call', lc, next, l, rfl, hpend, hhead, hex, hl, -, -⟩ |
    ⟨t, l, rfl, hst', hl, -, -⟩
  · exact hkeep (hsame hq.size) ⟨by rw [hq.loc], by rw [hq.loc]⟩
  · have hform := form_of_exec hen hab hex
    simp only [Action.thread] at hin hk hlt hkeep ⊢
    rw [hl] at hin hk hlt hkeep
    generalize hst' : s'.log = st' at hform hsame
    cases hform with
    | event mk hmk hnot => exact absurd (hnot.symm.trans hin) (by simp)
    | pair mk mk' hmk => exact absurd ((hinv.no_batch_of_pair hhead hmk).symm.trans hin) (by simp)
    | batched mk hmk hin' hpos => exact hkeep (hsame rfl) ⟨rfl, rfl⟩
    | still l' hpend' hbatch hlc =>
      obtain ⟨-, hid, -, hsz⟩ := hbatch hin
      exact hkeep (hsame rfl) ⟨hid, hsz⟩
    | batch nr hlc =>
      have hsz : s.log.logSz < s'.log.logSz := by
        rw [hst']
        exact (show s.log.logSz ≤ k from hk).trans_lt hlt
      obtain ⟨hhist, -, -⟩ := hrec.of_lt hsz hhead
      rw [hrec.place_new hsz hk]
      exact last_length hhist
  · obtain ⟨n, e, pend, -, -, rfl⟩ := store_eq hst'
    simp only [Action.thread] at hkeep ⊢
    rw [hl] at hkeep
    exact hkeep (hsame (store_logSz hst')) ⟨rfl, rfl⟩

/-- **One step**: the batches. -/
theorem BatchLast.step (h : BatchLast s) (hbatches : Batches s) (hinv : LogInv s) (hen : cfg.log.enable = true)
    (hphase : Phase s act.thread (s.thr act.thread).pc) (hstep : Stepped cfg s act s')
    (hab : s'.log.aborted = none) : BatchLast s' := by
  intro t call todo slot hpc hin k hk hlt
  by_cases ht : t = act.thread
  · subst ht
    exact h.own hbatches hinv hen hstep hab hpc hin hk hlt
  have hrec := recorded_of_step hstep
  rcases thr_of_ne hstep ht with heq | ⟨-, -, -, heq⟩ | ⟨call', depth, i, -, heq⟩
  · rw [heq] at hpc
    have hbusy : (s.thr t).pc.busy := by
      rw [Pc.busy, hpc]
      exact Option.some_ne_none _
    exact h.keep hbatches (keeps_other hinv.start hstep hrec hphase ht hbusy) hpc
      ⟨by rw [heq], by rw [heq]⟩ hin hk hlt
  · rw [heq] at hpc
    cases hpc
  · rw [heq] at hpc
    cases hpc

/-! ### Accesses to the byte -/

section Logged

variable {t n m a : ℕ} {e : Event} {call : Call} {lc : LogCall}

theorem Logged.isAccess (h : Logged cfg s act s' n e t call lc) (hshape : ∀ t, (s.thr t).pc.Shape cfg)
    (hacc : e.isAccessEvent) : lc.isAccess := by
  rcases h.loggedAs hshape with ⟨d, hd⟩ | hcreate
  · exact isAccess_of_loggedAs hacc hd
  · rcases Event.isAccessEvent_iff.mp hacc with hop | hop <;> cases hop.symm.trans hcreate

theorem covers_of_maker {isOnStack : Addr → Bool} {inst : ℕ} {mk : ℕ → Event} (hlc : lc.isAccess)
    (hmk : mk ∈ lc.makers inst t) (hno : lc.onStack isOnStack = false) (hcov : (mk n).covers a) :
    lc.covers isOnStack a := by
  have hbytes := (Bool.and_eq_true_iff.mp hcov).2
  cases lc with
  | logVarAccessEvent ty addr | logArrayAccessEvent ty addr len =>
    cases List.mem_singleton.mp hmk
    simp only [LogCall.onStack] at hno
    simp only [LogCall.covers, hno, Bool.not_false, Bool.true_and]
    exact hbytes
  | startBatchFor => cases hmk
  | _ => cases hlc

/-- **The thread** that logs an access to the byte owns the mutex. -/
theorem Logged.owner (h : Logged cfg s act s' n e t call lc) (hshape : ∀ t, (s.thr t).pc.Shape cfg)
    (hguard : Guarded m a s act) (hcov : e.covers a) : e.tid = t ∧ s.owner m = some t := by
  obtain ⟨mk, hmk, rfl⟩ := h.maker
  have hlc := h.isAccess hshape (Bool.and_eq_true_iff.mp hcov).1
  have hown := hguard _ h.calls (covers_of_maker hlc hmk h.onStack hcov)
  rw [h.action] at hown
  exact ⟨tid_of_maker hmk, hown⟩

/-- A call of the logger leaves the mutexes alone. -/
theorem Logged.owner_eq (h : Logged cfg s act s' n e t call lc) (hstep : Stepped cfg s act s') :
    s'.owner = s.owner := by
  obtain ⟨rfl, -⟩ := h
  cases hstep <;> rfl

/-- Accesses are logged in the hook before an operation. -/
theorem before_of_access {pc next : Pc} (hshape : pc.Shape cfg) (hpc : pc.head = some (call, .log lc, next))
    (hlc : lc.isAccess) : ∃ todo slot, pc = .before call todo slot := by
  rcases hshape.log hpc with ⟨todo, slot, hp, -⟩ | ⟨r, todo, lab, -, -, ⟨hop, hlogs, -⟩ | ⟨-, ⟨rfl, -⟩ | ⟨rfl, -⟩⟩⟩
  · exact ⟨_, slot, hp⟩
  · have hsync := isSync_of_logsAfter hlogs hop
    rw [not_isSync_of_access (Or.inl hlc)] at hsync
    cases hsync
  · cases hlc
  · cases hlc

/-- Only a call of a wrapper sets the first flag. -/
theorem started_of_exec (hstep : Stepped cfg s (.exec t) s') : s'.started = s.started := by
  cases hstep <;> rfl

/-- **Nothing has been done** by the thread since it reserved the slot of an access. -/
theorem Logged.last (h : Logged cfg s act s' n e t call lc) (hen : cfg.log.enable = true)
    (hab : s'.log.aborted = none) (hshape : ∀ t, (s.thr t).pc.Shape cfg) (hbatches : Batches s)
    (hbatch : BatchLast s) (hstep : Stepped cfg s act s') (hacc : e.isAccessEvent) :
    s'.Last t (s'.place n) := by
  have hrec := recorded_of_step hstep
  have hlc := h.isAccess hshape hacc
  obtain ⟨rfl, hpend, ⟨next, hpc⟩, -, hex, hmade⟩ := h
  have hform := form_of_exec hen hab hex
  generalize hst : s'.log = st' at hform
  generalize hl : (s'.thr t).log = l' at hform hmade
  cases hform with
  | event mk hmk hno =>
    obtain ⟨rfl, -⟩ := Prod.mk.inj (List.mem_singleton.mp hmade)
    have hsz : s.log.logSz < s'.log.logSz := by
      rw [hst]
      exact Nat.lt_succ_self _
    rw [hrec.place_new hsz le_rfl]
    exact last_length (hrec.of_lt hsz hpc).1
  | pair mk mk' hmk =>
    cases lc with
    | logVarAccessEvent | logArrayAccessEvent | startBatchFor => cases hmk
    | _ => cases hlc
  | batched mk hmk hin hlt =>
    obtain ⟨rfl, -⟩ := Prod.mk.inj (List.mem_singleton.mp hmade)
    obtain ⟨todo, slot, hp⟩ := before_of_access (hshape t) hpc hlc
    have hhook : (s.thr t).pc.hooked := by rw [hp]; rfl
    have hhist := hrec.hist_eq hhook (by rw [hst])
    have hkeep := keeps_self hstep hhist hrec (started_of_exec hstep) t
    have hk : (s.thr t).log.batchId + (s.thr t).log.batchPos <
        (s.thr t).log.batchId + (s.thr t).log.batchSz := Nat.add_lt_add_left hlt _
    rw [hkeep.place _ (hbatches.lt_logSz hp hin hk)]
    exact hkeep.last (hbatch t _ _ _ hp hin _ (Nat.le_add_right _ _) hk)
  | batch nr hlc =>
    rw [show (openBatch nr s.log (s.thr t).log).2.pend = (s.thr t).log.pend from rfl, hpend] at hmade
    cases hmade
  | still l' hpend' hsame hlc =>
    rw [hpend', hpend] at hmade
    cases hmade

end Logged

/-! ### Between two accesses -/

/-- A label at which a thread takes mutex `m`. -/
def Act.takesMutex (m : Addr) : Act → Prop
  | .acquire m' | .awake _ m' _ => m' = m
  | _ => False

theorem Act.takesMutex.isAfter {m : Addr} {x : Act} (h : x.takesMutex m) : x.isAfter ∧ x.isLog = false := by
  cases x with
  | acquire | awake => exact ⟨rfl, rfl⟩
  | _ => exact h.elim

/-- **A mutex gets an owner** where it had none, by a label of the new owner. -/
theorem owner_of_step (hstep : Stepped cfg s act s') {m : Addr} {u : ℕ} (h : s'.owner m = some u) :
    s.owner m = some u ∨ s.owner m = none ∧ ∃ x, Act.takesMutex m x ∧ s'.hist = s.hist ++ [⟨u, x⟩] := by
  cases hstep with
  | @call t call hpc hall =>
    obtain ⟨started, pc, heq⟩ := enter_eq cfg s t call
    rw [heq] at h
    exact Or.inl h
  | @acquire t m' call slot x hpc hop hown =>
    simp only [State.setPc, State.record, State.acquire] at h
    by_cases hm : m = m'
    · subst hm
      rw [Function.update_self] at h
      cases h
      rcases hown with hown | hown
      · exact Or.inr ⟨hown, .acquire m, rfl, rfl⟩
      · exact Or.inl hown
    · rw [Function.update_of_ne hm] at h
      exact Or.inl h
  | @release t m' call slot x hpc hop hown =>
    apply Or.inl
    simp only [State.setPc, State.record, State.release] at h
    by_cases hm : m = m'
    · subst hm
      rw [Function.update_self] at h
      split_ifs at h
      cases h
      exact hown
    · rwa [Function.update_of_ne hm] at h
  | @wait t c m' call slot x hpc hop hown =>
    apply Or.inl
    simp only [State.setPc, State.record, State.free] at h
    by_cases hm : m = m'
    · subst hm
      rw [Function.update_self] at h
      cases h
    · rwa [Function.update_of_ne hm] at h
  | @wakeUp t c m' call depth cause hpc hop hown =>
    simp only [State.setPc, State.record, State.own] at h
    by_cases hm : m = m'
    · subst hm
      rw [Function.update_self] at h
      cases h
      exact Or.inr ⟨hown, .awake c m cause, rfl, rfl⟩
    · rw [Function.update_of_ne hm] at h
      exact Or.inl h
  | @flush t i hpc =>
    obtain ⟨pc, file, aborted, heq⟩ := flushRound_eq s t i
    rw [heq] at h
    exact Or.inl h
  | _ => exact Or.inl h

/-- Thread `t` gives mutex `m` back between the places `p` and `q`. -/
def State.Released (s : State) (m : Addr) (t p q : ℕ) : Prop := ∃ k, p < k ∧ k < q ∧ s.At k t (.release m)

/-- What lies between the accesses to byte `a`, which mutex `m` protects. -/
structure LockInv (m a : Addr) (s : State) : Prop where
  batch : BatchLast s
  /-- A thread that has accessed the byte owns the mutex, or has given it back since. -/
  held : ∀ n e, s.Evt n e → e.covers a →
    s.owner m = some e.tid ∨ s.Released m e.tid (s.place n) s.hist.length
  /-- The owner took the mutex after all the others had given it back. -/
  taken : ∀ u, s.owner m = some u → ∃ i x, s.At i u x ∧ x.takesMutex m ∧
    ∀ n e, s.Evt n e → e.covers a → e.tid ≠ u → s.Released m e.tid (s.place n) i
  between : ∀ n n' e e', s.Evt n e → s.Evt n' e' → e.covers a → e'.covers a → e.tid ≠ e'.tid →
    s.place n < s.place n' → ∃ i x, s.At i e'.tid x ∧ x.takesMutex m ∧ i < s.place n' ∧
      s.Released m e.tid (s.place n) i

theorem LockInv.init (m a : Addr) : LockInv m a init where
  batch := .init
  held := fun n e h => by
    rcases h with h | ⟨t, h⟩ <;> cases h
  taken := fun u h => by cases h
  between := fun n n' e e' h => by
    rcases h with h | ⟨t, h⟩ <;> cases h

section LockInv

variable {m a : Addr}

theorem State.Released.mono (hrec : Recorded s act s') {t n q : ℕ} (hn : n < s.log.logSz)
    (h : s.Released m t (s.place n) q) : s'.Released m t (s'.place n) q := by
  obtain ⟨k, hpk, hkq, hk⟩ := h
  rw [← hrec.place_eq hn] at hpk
  exact ⟨k, hpk, hkq, hrec.mono hk⟩

/-- A new access: its thread took the mutex after all the others had given it back, and before it reserved the
slot. -/
theorem LockInv.new (h : LockInv m a s) (hinv : RunInv cfg s) (hen : cfg.log.enable = true)
    (hguard : Guarded m a s act) (hstep : Stepped cfg s act s') (hab : s'.log.aborted = none) {n t : ℕ} {e : Event}
    {call : Call} {lc : LogCall} (hnew : Logged cfg s act s' n e t call lc) (hcov : e.covers a) :
    e.tid = t ∧ s.owner m = some t ∧ ∃ i x, s'.At i t x ∧ x.takesMutex m ∧ i < s'.place n ∧
      ∀ n' e', s.Evt n' e' → e'.covers a → e'.tid ≠ t → s'.Released m e'.tid (s'.place n') i := by
  have hrec := recorded_of_step hstep
  obtain ⟨htid, hown⟩ := hnew.owner hinv.shape hguard hcov
  obtain ⟨i, x, hi, htakes, hall⟩ := h.taken t hown
  refine ⟨htid, hown, i, x, hrec.mono hi, htakes, ?_, fun n' e' he' hcov' hne =>
    (hall n' e' he' hcov' hne).mono hrec (hinv.events n' e' he').1⟩
  have hle := hnew.last hen hab hinv.shape hinv.batches h.batch hstep (Bool.and_eq_true_iff.mp hcov).1 i t x
    (hrec.mono hi) (Or.inl rfl)
  apply lt_of_le_of_ne hle
  rintro rfl
  -- the label of the slot is a reservation
  obtain ⟨-, ⟨lc', f, -, hat, -⟩, -⟩ :=
    hnew.fits hinv.log hen hab hinv.shape hinv.batches (hinv.phase _) hrec
  obtain ⟨-, rfl⟩ := hat.unique (hrec.mono hi)
  exact htakes

/-- **One step**: the accesses to the byte. -/
theorem LockInv.step (h : LockInv m a s) (hinv : RunInv cfg s) (hen : cfg.log.enable = true)
    (hguard : Guarded m a s act) (hstep : Stepped cfg s act s') (hab : s'.log.aborted = none) :
    LockInv m a s' := by
  have hrec := recorded_of_step hstep
  have hsize : ∀ {n e}, s.Evt n e → n < s.log.logSz := fun he => (hinv.events _ _ he).1
  refine ⟨h.batch.step hinv.batches hinv.log hen (hinv.phase _) hstep hab, fun n e he hcov => ?_,
    fun u hu => ?_, fun n n' e e' he he' hcov hcov' hne hlt => ?_⟩
  · rcases evt_of_step hstep he with he | ⟨t, call, lc, hnew⟩
    · rcases h.held n e he hcov with hown | ⟨k, hpk, hk, hat⟩
      · rcases hrec.owner hown with hown | hhist
        · exact Or.inl hown
        · refine Or.inr ⟨s.hist.length, ?_, ?_, at_length hhist⟩
          · rw [hrec.place_eq (hsize he)]
            exact hinv.places.place_lt (hsize he)
          · rw [hhist, List.length_append, List.length_singleton]
            exact Nat.lt_succ_self _
      · exact Or.inr (State.Released.mono hrec (hsize he) ⟨k, hpk, hk.trans_le hrec.length_le, hat⟩)
    · obtain ⟨htid, hown⟩ := hnew.owner hinv.shape hguard hcov
      rw [htid, hnew.owner_eq hstep]
      exact Or.inl hown
  · rcases owner_of_step hstep hu with hown | ⟨hfree, x, htakes, hhist⟩
    · obtain ⟨i, x, hi, htakes, hall⟩ := h.taken u hown
      refine ⟨i, x, hrec.mono hi, htakes, fun n e he hcov hne => ?_⟩
      rcases evt_of_step hstep he with he | ⟨t, call, lc, hnew⟩
      · exact (hall n e he hcov hne).mono hrec (hsize he)
      · obtain ⟨htid, hown'⟩ := hnew.owner hinv.shape hguard hcov
        exact absurd (htid.trans (Option.some.inj (hown'.symm.trans hown))) hne
    · refine ⟨s.hist.length, x, at_length hhist, htakes, fun n e he hcov hne => ?_⟩
      rcases evt_of_step hstep he with he | ⟨t, call, lc, hnew⟩
      · rcases h.held n e he hcov with hown | hrel
        · rw [hfree] at hown
          cases hown
        · exact hrel.mono hrec (hsize he)
      · obtain ⟨-, hown⟩ := hnew.owner hinv.shape hguard hcov
        rw [hfree] at hown
        cases hown
  · rcases evt_of_step hstep he' with he' | ⟨t, call, lc, hnew'⟩
    · rcases evt_of_step hstep he with he | ⟨t, call, lc, hnew⟩
      · rw [hrec.place_eq (hsize he), hrec.place_eq (hsize he')] at hlt
        obtain ⟨i, x, hi, htakes, hip, hrel⟩ := h.between n n' e e' he he' hcov hcov' hne hlt
        refine ⟨i, x, hrec.mono hi, htakes, ?_, hrel.mono hrec (hsize he)⟩
        rwa [hrec.place_eq (hsize he')]
      · -- the other access lies before the label where the thread took the mutex
        obtain ⟨rfl, -, i, x, -, -, hip, hall⟩ := h.new hinv hen hguard hstep hab hnew hcov
        obtain ⟨k, hpk, hki, -⟩ := hall n' e' he' hcov' hne.symm
        omega
    · obtain ⟨rfl, hown', i, x, hi, htakes, hip, hall⟩ := h.new hinv hen hguard hstep hab hnew' hcov'
      rcases evt_of_step hstep he with he | ⟨t', call', lc', hnew⟩
      · exact ⟨i, x, hi, htakes, hip, hall n e he hcov hne⟩
      · obtain ⟨htid, hown⟩ := hnew.owner hinv.shape hguard hcov
        exact absurd (htid.trans (Option.some.inj (hown.symm.trans hown'))) hne

end LockInv

/-! ### The file -/

section File

variable {m a : Addr} {e : Event} {lc : LogCall} {x : Act}

theorem not_access_of_logsBefore (hx : x.logsBefore lc) : ¬ lc.isAccess := by
  cases x with
  | spawn c =>
    obtain rfl : lc = _ := hx
    exact Bool.false_ne_true
  | release m' => rcases hx with rfl | ⟨c, rfl⟩ <;> exact Bool.false_ne_true
  | signal c i => rcases hx with rfl | rfl <;> exact Bool.false_ne_true
  | _ => exact hx.elim

theorem not_access_of_logsAfter (hx : x.logsAfter lc) : ¬ lc.isAccess := by
  cases x with
  | joined c | awake c m' cause =>
    obtain rfl : lc = _ := hx
    exact Bool.false_ne_true
  | acquire m' => rcases hx with rfl | rfl <;> exact Bool.false_ne_true
  | _ => exact hx.elim

/-- The event of a release. -/
theorem unlock_of_release (hx : (Act.release m).logsBefore lc) (h : e.LoggedAs lc 0) :
    e.opTy = .unlock ∧ e.varAddr = m := by
  unfold Event.LoggedAs at h
  rcases hx with rfl | ⟨c, rfl⟩
  · cases hop : e.opTy with
    | unlock =>
      rw [hop] at h
      refine ⟨rfl, ?_⟩
      rcases h.1 with heq | ⟨c, heq⟩
      · cases heq
        rfl
      · cases heq
    | _ => simp [hop, LogCall.isAccess] at h
  · cases hop : e.opTy with
    | unlock =>
      rw [hop] at h
      refine ⟨rfl, ?_⟩
      rcases h.1 with heq | ⟨c', heq⟩
      · cases heq
      · cases heq
        rfl
    | _ => simp [hop, LogCall.isAccess] at h

/-- The event of a label at which a thread takes a mutex. -/
theorem lock_of_takesMutex (hm : x.takesMutex m) (hx : x.logsAfter lc) (h : e.LoggedAs lc 0) :
    e.isSyncAcqEvent ∧ e.varAddr = m := by
  unfold Event.LoggedAs at h
  cases x with
  | acquire m' =>
    cases hm
    rcases hx with rfl | rfl
    · cases hop : e.opTy with
      | lock =>
        rw [hop] at h
        refine ⟨by simp [Event.isSyncAcqEvent, hop], ?_⟩
        rcases h.1 with heq | ⟨c, heq⟩
        · cases heq
          rfl
        · cases heq
      | _ => simp [hop, LogCall.isAccess] at h
    · cases hop : e.opTy with
      | trylock =>
        rw [hop] at h
        refine ⟨by simp [Event.isSyncAcqEvent, hop], ?_⟩
        cases h.1
        rfl
      | _ => simp [hop, LogCall.isAccess] at h
  | awake c m' cause =>
    cases hm
    obtain rfl : lc = _ := hx
    cases hop : e.opTy with
    | lock =>
      rw [hop] at h
      refine ⟨by simp [Event.isSyncAcqEvent, hop], ?_⟩
      rcases h.1 with heq | ⟨c', heq⟩
      · cases heq
      · cases heq
        rfl
    | _ => simp [hop, LogCall.isAccess] at h
  | _ => exact hm.elim

/-- **The accesses in the file are ordered**, by an `UNLOCK` and a `LOCK` of the mutex. -/
theorem happensBefore_of_locked (hinv : RunInv cfg s) (h : LockInv m a s) (hfile : FileInv s) {n n' : ℕ}
    {e e' : Event} (he : s.file[n]? = some e) (he' : s.file[n']? = some e') (hlt : n < n') (hcov : e.covers a)
    (hcov' : e'.covers a) (hne : e.tid ≠ e'.tid) : HappensBefore s.file n n' := by
  have hev := (hfile.file n e he).1
  have hev' := (hfile.file n' e' he').1
  obtain ⟨hn, lc, f, -, hat, hlog⟩ := hinv.label_of_event hev
  obtain ⟨hn', lc', f', -, hat', hlog'⟩ := hinv.label_of_event hev'
  -- the slots were reserved at two labels
  have hplace : s.place n < s.place n' := by
    apply lt_of_le_of_ne (hinv.places.mono n n' hlt.le hn')
    intro heq
    rw [heq] at hat
    exact hne (hat.unique hat').1
  obtain ⟨i, x, hi, htakes, hip, k, hpk, hki, hk⟩ :=
    h.between n n' e e' (Or.inl hev) (Or.inl hev') hcov hcov' hne hplace
  obtain ⟨I, hI, hIn⟩ := hinv.labels.logged _ _ _ _ hat
  obtain ⟨hafter, hnolog⟩ := htakes.isAfter
  obtain ⟨r, lcr, -, hr, hrsz, hatr, hrk, hnext⟩ := hinv.slot_before hk rfl ⟨I, hI, by omega⟩ fun F hF =>
    hki.trans (hinv.labels.inside _ _ _ _ hat' F hF i _ x hip hi hnolog (Or.inl rfl))
  obtain ⟨l, lcl, -, hl, hlsz, hatl, hil, hprev⟩ := hinv.slot_after hi hafter ⟨I, hI, by omega⟩ hat' hip
    (Or.inl rfl) fun _ _ => Or.inr rfl
  -- the accesses lie on either side of the two slots
  have hacc := isAccess_of_loggedAs (Bool.and_eq_true_iff.mp hcov).1 hlog
  have hacc' := isAccess_of_loggedAs (Bool.and_eq_true_iff.mp hcov').1 hlog'
  have hnr : n < r := by
    refine hinv.places.lt_of_place_lt hn (lt_of_le_of_ne ((hnext _ _ hat).resolve_right (by omega)) fun heq => ?_)
    rw [heq] at hat
    obtain ⟨-, hlabel⟩ := hat.unique hatr
    cases hlabel
    exact not_access_of_logsBefore hr hacc
  have hrl : r < l := hinv.places.lt_of_place_lt hrsz (by omega)
  have hln : l < n' := by
    refine hinv.places.lt_of_place_lt hlsz
      (lt_of_le_of_ne ((hprev _ _ _ hat' (Or.inl rfl)).resolve_left (by omega)) fun heq => ?_)
    rw [← heq] at hat'
    obtain ⟨-, hlabel⟩ := hat'.unique hatl
    cases hlabel
    exact not_access_of_logsAfter hl hacc'
  have hlen := (List.getElem?_eq_some_iff.mp he').1
  obtain ⟨er, her⟩ : ∃ er, s.file[r]? = some er := ⟨_, List.getElem?_eq_getElem (by omega)⟩
  obtain ⟨el, hel⟩ : ∃ el, s.file[l]? = some el := ⟨_, List.getElem?_eq_getElem (by omega)⟩
  obtain ⟨htr, hlogr⟩ := hinv.event_of_label hatr (hfile.file r er her).1
  obtain ⟨htl, hlogl⟩ := hinv.event_of_label hatl (hfile.file l el hel).1
  obtain ⟨hopr, hrm⟩ := unlock_of_release hr hlogr
  have hrel : er.isSyncRelEvent := by simp [Event.isSyncRelEvent, hopr]
  obtain ⟨hacq, hlm⟩ := lock_of_takesMutex htakes hl hlogl
  have hnr' : HappensBefore s.file n r := happensBefore_of_tid_eq hnr he her htr.symm
  have hrl' : HappensBefore s.file r l :=
    .single (direct_iff.mpr (Or.inl ⟨hrl, er, el, her, hel, .sync hrel hacq (hrm.trans hlm.symm)⟩))
  have hln' : HappensBefore s.file l n' := happensBefore_of_tid_eq hln hel he' htl
  exact (hnr'.trans hrl').trans hln'

/-- **Locking gives no alarm.** In every run in which byte `a` is accessed only under mutex `m` and `flush` visits no
slot that is held, no pair on `a` is reported for the trace. -/
theorem locked_not_reported (hen : cfg.log.enable = true)
    (h : ReachableBy cfg (fun s act => Clean s act ∧ Guarded m a s act) s) :
    ∀ g ra, loadTrace s.file = .ok g → RaceAnalyze.analyze g = .ok ra → ∀ i j, (i, j) ∈ ra.getTotalRaceEventPair →
      ∀ k e, k = i ∨ k = j → g.totEvents[k]? = some e → e.varAddr ≠ a := by
  intro g ra hload hra i j hmem k e hk he haddr
  obtain ⟨s₀, h₀, hab, heq, -⟩ := exists_file h
  rw [← heq] at hload
  obtain ⟨hinv, hlock⟩ := runInv_of_reachable (I := LockInv m a) hen h₀ hab (.init m a)
    fun s act s' hinv hlock hP hstep hab' => hlock.step hinv hen hP.2 hstep hab'
  obtain ⟨hfile, -⟩ := fileInv_of_reachable hen (h₀.mono fun _ _ hP => hP.1)
  have hne := expand_ne_nil_of_loaded hload (not_call_of_file hinv hfile)
  obtain ⟨a', n, n', f, f', hlt, hf, hf', hcov, hcov', htid, hun, haddr'⟩ :=
    reported_source hne hload hra hmem
  obtain rfl : a' = a := (haddr' k e hk he).symm.trans haddr
  exact hun (happensBefore_of_locked hinv hlock hfile hf hf' hlt hcov hcov' htid)

/-- Two threads store to byte 16 under the mutex at 8. -/
def lockedFile : List Event :=
  [.makeThreadEvent 0 0 0 .create 1, .makeSyncOpEvent 0 1 0 .lock 8, .makeVarAccessEvent 0 2 0 .st 16,
    .makeSyncOpEvent 0 3 0 .unlock 8, .makeSyncOpEvent 0 4 1 .lock 8, .makeVarAccessEvent 0 5 1 .st 16]

/-- The file is loaded and analysed. -/
theorem lockedFile_analyzed : ∃ g ra, loadTrace lockedFile = .ok g ∧ RaceAnalyze.analyze g = .ok ra := by
  obtain ⟨g, hg⟩ : ∃ g, loadTrace lockedFile = .ok g := exists_loadTrace (by decide)
  obtain ⟨ra, hra⟩ := exists_analyze hg (by decide) (by decide) (by decide)
  exact ⟨g, ra, hg, hra⟩

/-- Each of its events is loaded as one. -/
theorem totEvents_lockedFile {g : DepGraph} (hload : loadTrace lockedFile = .ok g) : g.totEvents = lockedFile := by
  have htot : (loadTrace lockedFile).toOption.map (·.totEvents) = some lockedFile := by decide +kernel
  rw [hload] at htot
  exact Option.some.inj htot

/-- A run that leaves `lockedFile`. -/
def lockedRun : List Action :=
  [.call 0 (plainCall .create), .exec 0, .exec 0, .ret 0, .real 0 .ok, .second 0, .exec 0, .exec 0,
    .store 0, .exec 0, .ret 0, .call 0 (plainCall (.mutexLock 8)), .exec 0, .ret 0, .real 0 .ok, .second 0,
    .exec 0, .exec 0, .store 0, .ret 0, .call 0 (plainCall (.store 16)), .exec 0, .store 0, .ret 0,
    .real 0 .ok, .second 0, .ret 0, .call 0 (plainCall (.mutexUnlock 8)), .exec 0, .exec 0, .store 0, .ret 0,
    .real 0 .ok, .second 0, .exec 0, .ret 0, .call 1 (plainCall (.mutexLock 8)), .exec 1, .ret 1, .real 1 .ok,
    .second 1, .exec 1, .exec 1, .store 1, .ret 1, .call 1 (plainCall (.store 16)), .exec 1, .store 1, .ret 1,
    .real 1 .ok, .second 1, .ret 1, .exit 0, .flush 0, .flush 0, .flush 0, .flush 0, .flush 0, .flush 0,
    .flush 0]

/-- The history of this run. -/
def lockedHist : List Label :=
  [⟨0, .log (.startBatch 1) 0⟩, ⟨0, .spawn 1⟩, ⟨0, .acquire 8⟩, ⟨0, .log (.logSyncOpEvent .lock 8) 1⟩,
    ⟨0, .log (.logVarAccessEvent .st 16) 2⟩, ⟨0, .log (.logSyncOpEvent .unlock 8) 3⟩, ⟨0, .release 8⟩,
    ⟨1, .acquire 8⟩, ⟨1, .log (.logSyncOpEvent .lock 8) 4⟩, ⟨1, .log (.logVarAccessEvent .st 16) 5⟩]

theorem locked_not_reported_lockedFile : ∃ s : State, s.file = lockedFile ∧
    (∃ g ra, loadTrace s.file = .ok g ∧ RaceAnalyze.analyze g = .ok ra) ∧
    ∀ g ra, loadTrace s.file = .ok g → RaceAnalyze.analyze g = .ok ra → ∀ i j, (i, j) ∈ ra.getTotalRaceEventPair →
      ∀ k e, k = i ∨ k = j → g.totEvents[k]? = some e → e.varAddr ≠ 16 := by
  have hrun : ((exec (restrict (step traced) fun s act => Clean s act ∧ Guarded 8 16 s act) init lockedRun).map
      fun s => s.file) = some lockedFile := by
    decide +kernel
  obtain ⟨s, hs, hfile⟩ := Option.map_eq_some_iff.mp hrun
  exact ⟨s, hfile, hfile ▸ lockedFile_analyzed, locked_not_reported rfl (Reach.of_exec hs)⟩

end File

end Interface

end Schnauzer
