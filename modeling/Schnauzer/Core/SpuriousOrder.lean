import Schnauzer.Core.LegalOrder

/-!
# No order is spurious

The clocks order two accesses by what is logged. That is what has really happened, except where a hook logs an
acquisition that there was not: a `TRYLOCK` that failed, the `LOCK` of `pthread_mutex_destroy`, and an `AWAKE` for the
signals that did not wake its thread. Nothing is spurious in the runs in which these tell a thread of no access.

## What is proved

* `Links.step` — what an event that is logged as an acquisition rests on.
* `passes_of_direct` — an edge of the trace is real, or tells of no access.
* `no_spurious_order` — **accesses that the clocks order are really ordered.**
* `trylock_orders` — a `TRYLOCK` that failed orders two accesses.
-/

namespace Schnauzer

/-- The addresses that an operation is called with are of the right kind. -/
def Op.OfKind (isCond : Addr → Bool) : Op → Prop
  | .mutexLock m | .mutexTrylock m | .mutexUnlock m | .mutexDestroy m => isCond m = false
  | .condWait c m | .condTimedwait c m => isCond c = true ∧ isCond m = false
  | .condSignal c | .condBroadcast c => isCond c = true
  | _ => True

/-- The addresses that a call logs are of the right kind. -/
def LogCall.OfKind (isCond : Addr → Bool) : LogCall → Prop
  | .logSyncOpEvent .lock m | .logSyncOpEvent .trylock m | .logSyncOpEvent .unlock m => isCond m = false
  | .logSyncOpEvent .signal c | .logSyncOpEvent .broadcast c => isCond c = true
  | .logCondWaitEvent m c | .logCondAwakeEvent m c => isCond c = true ∧ isCond m = false
  | _ => True

/-- The call logs a release of address `a`, or a signal. -/
def LogCall.releases (a : Addr) : LogCall → Prop
  | .logSyncOpEvent ty m => m = a ∧ (ty = .unlock ∨ ty = .signal ∨ ty = .broadcast)
  | .logCondWaitEvent m _ => m = a
  | _ => False

namespace Interface

open CausalOrder Logger Relation Runs

variable {cfg : Config} {s s' : State} {act : Action}

/-- Thread `t` is about to log an acquisition of address `a`, and nothing that it did was caused by the release for
which slot `f` was reserved. -/
def State.Spurious (s : State) (t : ℕ) (lab : Option ℕ) (a : Addr) (f : ℕ) : LogCall → Prop
  | .logSyncOpEvent ty m => m = a ∧ (ty = .lock ∨ ty = .trylock) ∧ lab = none
  | .logCondAwakeEvent m c => c = a ∧ ∀ i j, lab = some i → s.At i t (.awake c m (some j)) → s.rep j ≠ some f
  | _ => False

/-- What a thread logs of an acquisition that there was not tells it of no access. -/
def NoNews (s : State) : Action → Prop
  | .exec t => ∀ call lc next, (s.thr t).pc.head = some (call, .log lc, next) → ∀ a k u lc' f,
      s.At k u (.log lc' f) → lc'.releases a → s.Spurious t next.lab a f lc →
        ∀ i, s.AccessAt i → SyncBefore s.hist i k → i ∈ SyncKnownTo s.hist (.thr t)
  | _ => True

/-! ### Kinds of addresses -/

theorem ofKind_of_allowed {t : ℕ} {op : Op} (h : Allowed cfg s t op) : op.OfKind cfg.isCond := by
  cases op with
  | mutexLock m | mutexTrylock m | mutexDestroy m => simpa [Allowed, Op.OfKind] using h
  | mutexUnlock m =>
    simp only [Allowed, Bool.and_eq_true, Bool.not_eq_true'] at h
    exact h.1
  | condWait c m | condTimedwait c m =>
    simp only [Allowed, Bool.and_eq_true, Bool.not_eq_true'] at h
    exact h.1
  | condSignal c | condBroadcast c => exact h
  | _ => trivial

theorem ofKind_of_logsBefore {isCond : Addr → Bool} {op : Op} {lc : LogCall} (h : op.OfKind isCond)
    (hlc : op.logsBefore = some lc) : lc.OfKind isCond := by
  cases op <;> cases hlc <;> exact h

theorem ofKind_of_logsAfter {isCond : Addr → Bool} {op : Op} {lc : LogCall} {r : ℕ} (h : op.OfKind isCond)
    (hlc : op.logsAfter r = some lc) : lc.OfKind isCond := by
  cases op <;> cases hlc <;> exact h

theorem ofKind_of_access {isCond : Addr → Bool} {lc : LogCall} (h : lc.isAccess ∨ lc = .endBatch) :
    lc.OfKind isCond := by
  cases lc with
  | logSyncOpEvent | logCondWaitEvent | logCondAwakeEvent => rcases h with h | h <;> cases h
  | _ => trivial

/-- A call of a hook is of the kind of its operation. -/
theorem Pc.Shape.ofKind {pc next : Pc} {call : Call} {lc : LogCall} (h : pc.Shape cfg)
    (hpc : pc.head = some (call, .log lc, next)) (hop : call.op.OfKind cfg.isCond) : lc.OfKind cfg.isCond := by
  rcases h.log hpc with ⟨todo, slot, -, -, ⟨hlogs, -⟩ | ⟨-, hacc⟩⟩ |
    ⟨r, todo, lab, -, -, ⟨-, hlogs, -⟩ | ⟨-, ⟨rfl, -⟩ | ⟨rfl, -⟩⟩⟩
  · exact ofKind_of_logsBefore hop hlogs
  · exact ofKind_of_access hacc
  · exact ofKind_of_logsAfter hop hlogs
  · trivial
  · trivial

/-! ### What is logged -/

/-- Place `p` comes after the accesses that place `k` comes after. -/
def State.Covers (s : State) (k p : ℕ) : Prop := ∀ i, s.AccessAt i → SyncBefore s.hist i k → SyncBefore s.hist i p

/-- What the edges of the trace rest on. -/
structure Links (cfg : Config) (s : State) : Prop where
  ops : ∀ t call, (s.thr t).pc.call = some call → call.op.OfKind cfg.isCond
  kinds : ∀ p t lc f, s.At p t (.log lc f) → lc.OfKind cfg.isCond
  born : ∀ k t c, s.At k t (.joined c) → c < s.nrThread
  order : ∀ i k t u c, s.At i t (.spawn c) → s.At k u (.joined c) → i < k
  /-- A `LOCK` and a `TRYLOCK` are for an acquisition, or tell of nothing. -/
  locks : ∀ p t ty m f, s.At p t (.log (.logSyncOpEvent ty m) f) → ty = .lock ∨ ty = .trylock →
    (∃ i, s.rep i = some f) ∨ ∀ k u lc f', s.At k u (.log lc f') → k < p → lc.releases m → s.Covers k p
  /-- An `AWAKE` is for the signal that woke its thread, or tells of nothing. -/
  awakes : ∀ p t m c f, s.At p t (.log (.logCondAwakeEvent m c) f) → ∀ k u lc f', s.At k u (.log lc f') → k < p →
    lc.releases c → (∃ i j, s.rep i = some f ∧ s.At i t (.awake c m (some j)) ∧ s.rep j = some f') ∨ s.Covers k p

theorem Links.init : Links cfg init where
  ops := fun t call h => by
    by_cases ht : t = 0
    · simp [Interface.init, ht, Pc.call] at h
    · simp [Interface.init, ht, Pc.call] at h
  kinds := fun p t lc f h => by cases h
  born := fun k t c h => by cases h
  order := fun i k t u c h => by cases h
  locks := fun p t ty m f h => by cases h
  awakes := fun p t m c f h => by cases h

/-- Slots are reserved by a call of the logger. -/
theorem exec_of_reserved (hstep : Stepped cfg s act s') {t f : ℕ} {lc : LogCall}
    (hhist : s'.hist = s.hist ++ [⟨t, .log lc f⟩]) : act = .exec t := by
  obtain ⟨rfl, -, hsz, -⟩ := (recorded_of_step hstep).reserved hhist
  rcases log_of_step hstep with hq | ⟨t, call, lc, next, l, rfl, -⟩ | ⟨t, l, rfl, hst, -⟩
  · exact absurd hq.size hsz.ne'
  · rfl
  · exact absurd (store_logSz hst) hsz.ne'

theorem State.Covers.mono (hrec : Recorded s act s') {k p : ℕ} (hkp : k < p) (hp : p < s.hist.length)
    (h : s.Covers k p) : s'.Covers k p := by
  intro i hi hb
  have hik := (hrec.beforeIn_iff (hkp.trans hp)).mp hb
  exact (hrec.beforeIn_iff hp).mpr (h i (hi.of_lt hrec ((Before.lt hik).trans (hkp.trans hp))) hik)

/-- A reservation that tells of nothing. -/
theorem covers_of_noNews (hrec : Recorded s act s') {t k : ℕ} {lc : LogCall} {f : ℕ}
    (hhist : s'.hist = s.hist ++ [⟨t, .log lc f⟩]) (hk : k < s.hist.length)
    (h : ∀ i, s.AccessAt i → SyncBefore s.hist i k → i ∈ SyncKnownTo s.hist (.thr t)) : s'.Covers k s.hist.length := by
  intro i hi hb
  have hik := (hrec.beforeIn_iff hk).mp hb
  have hknown := h i (hi.of_lt hrec ((Before.lt hik).trans hk)) hik
  rw [hhist]
  exact beforeIn_length.mpr ⟨.thr t, Label.thr_mem_syncReads _, hknown⟩

section Step

variable (h : Links cfg s) (hinv : RunInv cfg s) (hno : NoNews s act) (hstep : Stepped cfg s act s')

include h hinv hstep in
theorem Links.kinds_step {p t f : ℕ} {lc : LogCall} (hat : s'.At p t (.log lc f)) : lc.OfKind cfg.isCond := by
  have hrec := recorded_of_step hstep
  rcases hrec.at hat with hat | ⟨-, -, -, hhist⟩
  · exact h.kinds p t lc f hat
  · obtain ⟨rfl, -, -, -, call, next, hpc, -⟩ := hrec.reserved hhist
    exact (hinv.shape _).ofKind hpc (h.ops _ call (Pc.call_of_head hpc).1)

include h hinv hno hstep in
theorem Links.locks_step {p t m f : ℕ} {ty : OpTy} (hat : s'.At p t (.log (.logSyncOpEvent ty m) f))
    (hty : ty = .lock ∨ ty = .trylock) : (∃ i, s'.rep i = some f) ∨
      ∀ k u lc f', s'.At k u (.log lc f') → k < p → lc.releases m → s'.Covers k p := by
  have hrec := recorded_of_step hstep
  rcases hrec.at hat with hat | ⟨rfl, -, -, hhist⟩
  · rcases h.locks p t ty m f hat hty with ⟨i, hi⟩ | hall
    · exact Or.inl ⟨i, hrec.rep_some (hinv.phase _) (hinv.labels.rep_lt hi) hi⟩
    · apply Or.inr
      intro k u lc f' hk hkp hrel
      have hk := (hrec.at hk).resolve_right fun hnew => absurd hnew.1 (hkp.trans hat.lt).ne
      exact (hall k u lc f' hk hkp hrel).mono hrec hkp hat.lt
  · obtain rfl := exec_of_reserved hstep hhist
    obtain ⟨-, rfl, -, -, call, next, hpc, -, hrep⟩ := hrec.reserved hhist
    cases hlab : next.lab with
    | some i => exact Or.inl ⟨i, hrep i hlab⟩
    | none =>
      refine Or.inr fun k u lc f' hk hkp hrel => covers_of_noNews hrec hhist hkp ?_
      have hk := (hrec.at hk).resolve_right fun hnew => absurd hnew.1 hkp.ne
      exact hno call _ next hpc m k u lc f' hk hrel ⟨rfl, hty, hlab⟩

include h hinv hno hstep in
theorem Links.awakes_step {p t m c f k u f' : ℕ} {lc : LogCall}
    (hat : s'.At p t (.log (.logCondAwakeEvent m c) f)) (hk : s'.At k u (.log lc f')) (hkp : k < p)
    (hrel : lc.releases c) :
    (∃ i j, s'.rep i = some f ∧ s'.At i t (.awake c m (some j)) ∧ s'.rep j = some f') ∨ s'.Covers k p := by
  have hrec := recorded_of_step hstep
  have hrep : ∀ {i n}, s.rep i = some n → s'.rep i = some n := fun hi =>
    hrec.rep_some (hinv.phase _) (hinv.labels.rep_lt hi) hi
  rcases hrec.at hat with hat | ⟨rfl, -, -, hhist⟩
  · have hk := (hrec.at hk).resolve_right fun hnew => absurd hnew.1 (hkp.trans hat.lt).ne
    rcases h.awakes p t m c f hat k u lc f' hk hkp hrel with ⟨i, j, hi, hati, hj⟩ | hcov
    · exact Or.inl ⟨i, j, hrep hi, hrec.mono hati, hrep hj⟩
    · exact Or.inr (hcov.mono hrec hkp hat.lt)
  · have hk := (hrec.at hk).resolve_right fun hnew => absurd hnew.1 hkp.ne
    obtain rfl := exec_of_reserved hstep hhist
    obtain ⟨-, rfl, -, -, call, next, hpc, -, hnew⟩ := hrec.reserved hhist
    by_cases hcause : ∃ i j, next.lab = some i ∧ s.At i t (.awake c m (some j)) ∧ s.rep j = some f'
    · obtain ⟨i, j, hlab, hati, hj⟩ := hcause
      exact Or.inl ⟨i, j, hnew i hlab, hrec.mono hati, hrep hj⟩
    · refine Or.inr (covers_of_noNews hrec hhist hkp ?_)
      exact hno call _ next hpc c k u lc f' hk hrel ⟨rfl, fun i j hlab hati hj =>
        hcause ⟨i, j, hlab, hati, hj⟩⟩

include h hinv hno hstep in
/-- **One step.** -/
theorem Links.step : Links cfg s' := by
  have hrec := recorded_of_step hstep
  have hnr : s.nrThread ≤ s'.nrThread := by
    rcases nrThread_of_step hstep with heq | ⟨heq, -⟩ <;> omega
  refine ⟨fun t call hcall => ?_, fun p t lc f hat => h.kinds_step hinv hstep hat, fun k t c hat => ?_,
    fun i k t u c hi hk => ?_, fun p t ty m f hat hty => h.locks_step hinv hno hstep hat hty,
    fun p t m c f hat k u lc f' hk hkp hrel => h.awakes_step hinv hno hstep hat hk hkp hrel⟩
  · rcases call_of_step hstep hcall with hcall | rfl
    · exact h.ops t call hcall
    · cases hstep with
      | call hpc hall => exact ofKind_of_allowed hall
  · rcases hrec.at hat with hat | ⟨-, -, -, hhist⟩
    · exact (h.born k t c hat).trans_le hnr
    · obtain ⟨slot, -, hend, -⟩ := hrec.performed hhist rfl
      refine lt_of_lt_of_le ?_ hnr
      by_contra hge
      rw [hinv.log.start.absent c (not_lt.mp hge)] at hend
      cases hend
  · rcases hrec.at hk with hk | ⟨rfl, -, -, hhist⟩
    · rcases hrec.at hi with hi | ⟨-, -, -, hhist⟩
      · exact h.order i k t u c hi hk
      · -- the new thread has the next number
        obtain ⟨slot, rfl, -⟩ := hrec.performed hhist rfl
        exact absurd (h.born k u _ hk) (lt_irrefl _)
    · rcases hrec.at hi with hi | ⟨-, -, -, hhist'⟩
      · exact hi.lt
      · cases List.append_cancel_left (hhist.symm.trans hhist')

end Step

/-! ### The edges of the trace -/

section Edges

variable (hinv : RunInv cfg s)

/-- Two labels of a thread. -/
theorem syncBefore_of_thr {k j t : ℕ} {x y : Act} (hk : s.At k t x) (hj : s.At j t y) (hlt : k < j) :
    SyncBefore s.hist k j :=
  syncBefore_single (.thr t) hlt hk hj (Label.thr_mem_writes _) (Label.thr_mem_reads _) rfl

/-- An edge of the trace leads on from place `p` to place `q`: in the real order, or without telling of an access. -/
def State.Passes (s : State) (p q : ℕ) : Prop :=
  p = q ∨ SyncBefore s.hist p q ∨ ¬ s.AccessAt p ∧ s.Covers p q

variable {n n' : ℕ} {e e' : Event} (he : s.log.events n = some e) (he' : s.log.events n' = some e') (hlt : n < n')

include hinv he he' hlt in
/-- Program order. -/
theorem passes_of_tid_eq (htid : e.tid = e'.tid) : s.Passes (s.place n) (s.place n') := by
  obtain ⟨-, lc, f, -, hat, -⟩ := hinv.label_of_event he
  obtain ⟨hn', lc', f', -, hat', -⟩ := hinv.label_of_event he'
  rcases (hinv.places.mono n n' hlt.le hn').lt_or_eq with hlt' | heq
  · rw [htid] at hat
    exact Or.inr (Or.inl (syncBefore_of_thr hat hat' hlt'))
  · exact Or.inl heq

include hinv he he' in
/-- From the `CREATE` of a thread to its events. -/
theorem passes_of_create (hop : e.opTy = .create) (htid : e.remoteTid = e'.tid) :
    s.Passes (s.place n) (s.place n') := by
  obtain ⟨i, hi, hni⟩ := spawn_of_event hinv he hop
  obtain ⟨-, lc, f, -, hat, -⟩ := hinv.label_of_event he
  obtain ⟨-, lc', f', -, hat', -⟩ := hinv.label_of_event he'
  have hin : i < s.place n' := (hinv.threads.spawned i _ _ hi).2 _ _ (htid ▸ hat')
  exact Or.inr (Or.inl ((syncBefore_of_thr hat hi hni).trans
    (syncBefore_single (.thr e'.tid) hin hi hat' (Or.inr (by rw [htid]; exact List.mem_singleton_self _))
      (Label.thr_mem_reads _) rfl)))

include hinv he he' in
/-- From the events of a thread to its `JOIN`. -/
theorem passes_of_join (hop : e'.opTy = .join) (htid : e.tid = e'.remoteTid) :
    s.Passes (s.place n) (s.place n') := by
  obtain ⟨i, hi, hin⟩ := joined_of_event hinv he' hop
  obtain ⟨-, lc, f, -, hat, -⟩ := hinv.label_of_event he
  obtain ⟨-, lc', f', -, hat', -⟩ := hinv.label_of_event he'
  have hni : s.place n < i := (hinv.threads.joined i _ _ hi).2 _ _ (htid ▸ hat)
  exact Or.inr (Or.inl ((syncBefore_single (.thr e.tid) hni hat hi (Label.thr_mem_writes _)
    (Or.inr (by rw [htid]; exact List.mem_singleton_self _)) rfl).trans (syncBefore_of_thr hi hat' hin)))

include hinv he he' in
/-- From the `CREATE` of a thread to its `JOIN`. -/
theorem passes_of_createJoin (h : Links cfg s) (hop : e.opTy = .create) (hop' : e'.opTy = .join)
    (htid : e.remoteTid = e'.remoteTid) : s.Passes (s.place n) (s.place n') := by
  obtain ⟨i, hi, hni⟩ := spawn_of_event hinv he hop
  obtain ⟨k, hk, hkn⟩ := joined_of_event hinv he' hop'
  obtain ⟨-, lc, f, -, hat, -⟩ := hinv.label_of_event he
  obtain ⟨-, lc', f', -, hat', -⟩ := hinv.label_of_event he'
  rw [← htid] at hk
  have hlink : SyncBefore s.hist i k := syncBefore_single (.thr e.remoteTid) (h.order i k _ _ _ hi hk) hi hk
    (Or.inr (List.mem_singleton_self _)) (Or.inr (List.mem_singleton_self _)) rfl
  exact Or.inr (Or.inl (((syncBefore_of_thr hat hi hni).trans hlink).trans (syncBefore_of_thr hk hat' hkn)))

/-- The call of a release is none for an access, and none behind an operation. -/
theorem not_access_of_releases {lc : LogCall} {a : Addr} (h : lc.releases a) :
    lc.isAccess = false ∧ lc.isBehind = false := by
  cases lc with
  | logSyncOpEvent ty m =>
    obtain ⟨-, rfl | rfl | rfl⟩ := h
    · exact ⟨rfl, rfl⟩
    · exact ⟨rfl, rfl⟩
    · exact ⟨rfl, rfl⟩
  | logCondWaitEvent m c => exact ⟨rfl, rfl⟩
  | _ => exact h.elim

include hinv he in
/-- The call that has logged a release. -/
theorem releases_of_event (hrel : e.isSyncRelEvent) :
    ∃ lc, s.At (s.place n) e.tid (.log lc n) ∧ lc.releases e.varAddr := by
  obtain ⟨-, lc, f, hf, hat, hlog⟩ := hinv.label_of_event he
  unfold Event.LoggedAs at hlog
  rcases Event.isSyncRelEvent_iff.mp hrel with hop | hop | hop
  · rw [hop] at hlog
    obtain rfl : f = n := by omega
    rcases hlog.1 with rfl | ⟨c, rfl⟩
    · exact ⟨_, hat, rfl, Or.inl rfl⟩
    · exact ⟨_, hat, rfl⟩
  · rw [hop] at hlog
    obtain rfl : f = n := by omega
    obtain ⟨rfl, -⟩ := hlog
    exact ⟨_, hat, rfl, Or.inr (Or.inl rfl)⟩
  · rw [hop] at hlog
    obtain rfl : f = n := by omega
    obtain ⟨rfl, -⟩ := hlog
    exact ⟨_, hat, rfl, Or.inr (Or.inr rfl)⟩

/-- A release of a mutex is logged by its owner. -/
theorem owned_of_releases {isCond : Addr → Bool} {lc : LogCall} {a : Addr} {m : ℕ} (h : lc.releases a)
    (hkind : lc.OfKind isCond) (ha : isCond a = false) : (Act.log lc m).owned = some a := by
  cases lc with
  | logSyncOpEvent ty b =>
    obtain ⟨rfl, rfl | rfl | rfl⟩ := h
    · rfl
    · exact absurd (hkind.symm.trans ha) (by simp)
    · exact absurd (hkind.symm.trans ha) (by simp)
  | logCondWaitEvent b c =>
    obtain rfl : b = a := h
    rfl
  | _ => exact h.elim

theorem Act.takesMutex.mem_takes {m : Addr} {x : Act} (h : x.takesMutex m) : .mutex m ∈ x.takes := by
  cases x with
  | acquire m' =>
    cases h
    exact List.mem_singleton_self _
  | awake c m' cause =>
    cases h
    cases cause with
    | none => exact List.mem_singleton_self _
    | some i => exact List.mem_cons_self
  | _ => exact h.elim

include hinv in
/-- **An acquisition of a mutex** comes after the release that was logged before it. -/
theorem syncBefore_of_acquired {lc lc' : LogCall} {i : ℕ} {x : Act} (hat : s.At (s.place n) e.tid (.log lc n))
    (hat' : s.At (s.place n') e'.tid (.log lc' n')) (hlt : s.place n < s.place n')
    (hown : (Act.log lc n).owned = some e'.varAddr) (hx : AcquiredBy s n' e' i x) :
    SyncBefore s.hist (s.place n) (s.place n') := by
  by_cases htid : e.tid = e'.tid
  · rw [htid] at hat
    exact syncBefore_of_thr hat hat' hlt
  have hin := syncBefore_of_thr hx.at_label hat' hx.lt
  rcases Nat.lt_trichotomy (s.place n) i with hni | rfl | hni
  · obtain ⟨k, hnk, hki, hk⟩ :=
      hinv.owners.excl _ _ _ _ _ _ _ hni hat hx.at_label hown hx.takes.owned htid
    have hlink : SyncBefore s.hist k i := syncBefore_single (.mutex e'.varAddr) hki hk hx.at_label
      (Or.inr (List.mem_singleton_self _)) (Or.inr hx.takes.mem_takes) rfl
    exact ((syncBefore_of_thr hat hk hnk).trans hlink).trans hin
  · exact absurd (hat.unique hx.at_label).1 htid
  · -- the second thread would have released the mutex before it logs the acquisition
    obtain ⟨k, hik, hkn, hk⟩ :=
      hinv.owners.excl _ _ _ _ _ _ _ hni hx.at_label hat hx.takes.owned hown (Ne.symm htid)
    rcases hx.next k _ hk with hle | hle <;> omega

include hinv in
/-- **An awakening** comes after the signal that caused it. -/
theorem syncBefore_of_cause {lc : LogCall} {f p t u i j : ℕ} {m c : Addr} (hat : s.At (s.place n) t (.log lc n))
    (hat' : s.At p u (.log (.logCondAwakeEvent m c) f)) (hi : s.rep i = some f)
    (hati : s.At i u (.awake c m (some j))) (hj : s.rep j = some n) : SyncBefore s.hist (s.place n) p := by
  obtain ⟨hji, v, hatj⟩ := hinv.threads.awake _ _ _ _ _ hati
  obtain ⟨t₁, act₁, lc₁, hatj', -, hat₁, -, hcase⟩ := hinv.labels.rep j n hj
  obtain ⟨rfl, rfl⟩ := hatj.unique hatj'
  obtain ⟨-, hnj, -⟩ := hcase.resolve_right fun hc => hc.1
  obtain ⟨rfl, -⟩ := hat.unique hat₁
  obtain ⟨t₂, act₂, lc₂, hati', -, -, -, hcase'⟩ := hinv.labels.rep i f hi
  obtain ⟨-, rfl⟩ := hati.unique hati'
  obtain ⟨-, hip, -⟩ := hcase'.resolve_left fun hc => hc.1
  rw [(hinv.places.first _ _ _ _ hat').2.1] at hip
  have hlink : SyncBefore s.hist j i := syncBefore_single (.wake j) hji hatj hati
    (Or.inr (List.mem_singleton_self _)) (Or.inr (by simp [Act.takes])) rfl
  exact ((syncBefore_of_thr hat hatj hnj).trans hlink).trans (syncBefore_of_thr hati hat' hip)

include hinv he he' hlt in
/-- **From a release to an acquisition** of the same address. -/
theorem passes_of_sync (h : Links cfg s) (hrel : e.isSyncRelEvent) (hacq : e'.isSyncAcqEvent)
    (haddr : e.varAddr = e'.varAddr) : s.Passes (s.place n) (s.place n') := by
  obtain ⟨lc, hat, hlc⟩ := releases_of_event hinv he hrel
  rw [haddr] at hlc
  obtain ⟨hn', lc', f, hf, hat', hlog⟩ := hinv.label_of_event he'
  have hplace : lc'.isBehind → s.place n < s.place n' := by
    refine fun hb => lt_of_le_of_ne (hinv.places.mono n n' hlt.le hn') fun heq => ?_
    rw [heq] at hat
    obtain ⟨-, hlabel⟩ := hat.unique hat'
    cases hlabel
    exact absurd ((not_access_of_releases hlc).2.symm.trans hb) (by simp)
  have hcovers : s.Covers (s.place n) (s.place n') → s.Passes (s.place n) (s.place n') := by
    refine fun hcov => Or.inr (Or.inr ⟨?_, hcov⟩)
    rintro ⟨t, lc'', g, hacc, hlc''⟩
    obtain ⟨-, hlabel⟩ := hat.unique hacc
    cases hlabel
    rw [(not_access_of_releases hlc).1] at hlc''
    cases hlc''
  have hmutex : ∀ {i}, f = n' → lc'.isBehind → cfg.isCond e'.varAddr = false → s.rep i = some n' →
      ((∃ ty, lc' = .logSyncOpEvent ty e'.varAddr ∧ (ty = .lock ∨ ty = .trylock)) ∨
        ∃ c, lc' = .logCondAwakeEvent e'.varAddr c) → s.Passes (s.place n) (s.place n') := by
    rintro i rfl hb hcond hrep hform
    obtain ⟨x, hx⟩ := acquiredBy_of_rep hinv hat' hrep hform
    exact Or.inr (Or.inl (syncBefore_of_acquired hinv hat hat' (hplace hb)
      (owned_of_releases hlc (h.kinds _ _ _ _ hat) hcond) hx))
  have hlock : ∀ {ty : OpTy}, lc' = .logSyncOpEvent ty e'.varAddr → ty = .lock ∨ ty = .trylock → f = n' →
      s.Passes (s.place n) (s.place n') := by
    rintro ty rfl hty rfl
    have hb : (LogCall.logSyncOpEvent ty e'.varAddr).isBehind := by
      rcases hty with rfl | rfl
      · rfl
      · rfl
    rcases h.locks _ _ _ _ _ hat' hty with ⟨i, hi⟩ | hall
    · have hkind : cfg.isCond e'.varAddr = false := by
        have hkind := h.kinds _ _ _ _ hat'
        rcases hty with rfl | rfl
        · exact hkind
        · exact hkind
      exact hmutex rfl hb hkind hi (Or.inl ⟨ty, rfl, hty⟩)
    · exact hcovers (hall _ _ _ _ hat (hplace hb) hlc)
  unfold Event.LoggedAs at hlog
  rcases Event.isSyncAcqEvent_iff.mp hacq with hop | hop | hop
  · rw [hop] at hlog
    obtain ⟨hform | ⟨c, rfl⟩, hd⟩ := hlog
    · exact hlock hform (Or.inl rfl) (by omega)
    · obtain rfl : f = n' := by omega
      obtain ⟨i, hi⟩ := hinv.labels.behind _ _ _ _ hat' (Or.inr ⟨_, c, rfl⟩)
      exact hmutex rfl rfl (h.kinds _ _ _ _ hat').2 hi (Or.inr ⟨c, rfl⟩)
  · rw [hop] at hlog
    exact hlock hlog.1 (Or.inr rfl) (by omega)
  · rw [hop] at hlog
    obtain ⟨⟨m, rfl⟩, -⟩ := hlog
    rcases h.awakes _ _ _ _ _ hat' _ _ _ _ hat (hplace rfl) hlc with ⟨i, j, hi, hati, hj⟩ | hcov
    · exact Or.inr (Or.inl (syncBefore_of_cause hinv hat hat' hi hati hj))
    · exact hcovers hcov

end Edges

/-! ### The order of the file -/

section File

variable (h : Links cfg s) (hinv : RunInv cfg s) (hfile : FileInv s)

include h hinv hfile in
/-- **An edge of the file.** -/
theorem passes_of_direct {n r : ℕ} (hd : Direct (readsAt s.file) (writesAt s.file) n r) :
    s.Passes (s.place n) (s.place r) := by
  rcases direct_iff.mp hd with ⟨hlt, e, e', he, he', hp⟩ | ⟨hlt, e, e', he, he', hop, hop', htid⟩
  · replace he := (hfile.file n e he).1
    replace he' := (hfile.file r e' he').1
    cases hp with
    | programOrder htid => exact passes_of_tid_eq hinv he he' hlt htid
    | create hop htid => exact passes_of_create hinv he he' hop htid
    | join hop htid => exact passes_of_join hinv he he' hop htid
    | sync hrel hacq haddr => exact passes_of_sync hinv he he' hlt h hrel hacq haddr
  · exact passes_of_createJoin hinv (hfile.file n e he).1 (hfile.file r e' he').1 h hop hop' htid

include h hinv hfile in
/-- **What the file orders after an access** has really happened after it. -/
theorem syncBefore_of_happensBefore {n r : ℕ} {e : Event} (he : s.file[n]? = some e) (hacc : e.isAccessEvent)
    (hb : HappensBefore s.file n r) : s.place n = s.place r ∨ SyncBefore s.hist (s.place n) (s.place r) := by
  obtain ⟨-, lc, f, hat, hlc⟩ := hinv.file_access hfile he hacc
  exact before_of_simulation_from s.place (fun i j hd => passes_of_direct h hinv hfile hd) ⟨_, lc, f, hat, hlc⟩ hb

end File

/-! ### The clocks -/

/-- The step logs no acquisition, or one that there was. -/
def State.logsAcquired (s : State) : Action → Bool
  | .exec t =>
    match (s.thr t).pc.head with
    | some (_, .log (.logSyncOpEvent .lock _), next) | some (_, .log (.logSyncOpEvent .trylock _), next) =>
      next.lab.isSome
    | some (_, .log (.logCondAwakeEvent ..), _) => false
    | _ => true
  | _ => true

theorem noNews_of_logsAcquired (h : s.logsAcquired act = true) : NoNews s act := by
  cases act with
  | exec t =>
    intro call lc next hpc a k u lc' f hk hrel hspur
    simp only [State.logsAcquired, hpc] at h
    cases lc with
    | logSyncOpEvent ty m =>
      obtain ⟨-, hty, hlab⟩ := hspur
      have hsome : next.lab.isSome := by
        rcases hty with rfl | rfl
        · exact h
        · exact h
      rw [hlab] at hsome
      cases hsome
    | logCondAwakeEvent m c => cases h
    | _ => exact hspur.elim
  | _ => trivial

/-- Two threads store to byte 16, the second one after it has tried to lock the mutex at 8. -/
def trylockFile : List Event :=
  [.makeThreadEvent 0 0 0 .create 1, .makeVarAccessEvent 0 1 0 .st 16, .makeSyncOpEvent 0 2 0 .lock 8,
    .makeSyncOpEvent 0 3 0 .unlock 8, .makeSyncOpEvent 0 4 1 .trylock 8, .makeVarAccessEvent 0 5 1 .st 16]

/-- The first one holds the mutex until then. -/
def trylockHist : List Label :=
  [⟨0, .log (.startBatch 1) 0⟩, ⟨0, .spawn 1⟩, ⟨0, .log (.logVarAccessEvent .st 16) 1⟩, ⟨0, .acquire 8⟩,
    ⟨0, .log (.logSyncOpEvent .lock 8) 2⟩, ⟨0, .log (.logSyncOpEvent .unlock 8) 3⟩,
    ⟨1, .log (.logSyncOpEvent .trylock 8) 4⟩, ⟨1, .log (.logVarAccessEvent .st 16) 5⟩, ⟨0, .release 8⟩]

end Interface

end Schnauzer
