import Schnauzer.Core.LockDiscipline
import Schnauzer.Core.SlotContents

/-!
# The logged order

In the order of the timestamps the events of the log are a possible order of what really happened: the events of a thread
lie between its `CREATE` and its `JOIN`, the sections under a mutex do not overlap, and a thread awakes after the signal
that woke it. This is for programs that destroy no mutex: the wrapper of `pthread_mutex_destroy` logs a `LOCK`.

## What is proved

* `SyncInv.step` — each `LOCK` has its acquisition, and each awakening its signal.
* `legalOrder` — **the logged order is legal**, in every state of a run.
-/

namespace Schnauzer.Interface

open Logger Runs

variable {cfg : Config} {s s' : State} {a : Action}

/-- The step calls `pthread_mutex_destroy`. -/
def Action.destroys : Action → Bool
  | .call _ c =>
    match c.op with
    | .mutexDestroy _ => true
    | _ => false
  | _ => false

/-- No mutex is destroyed. -/
def NoDestroy (_ : State) (a : Action) : Prop := a.destroys = false

instance (s : State) (a : Action) : Decidable (NoDestroy s a) := inferInstanceAs (Decidable (_ = false))

/-- What the events of the log rest on. -/
structure SyncInv (s : State) : Prop where
  contents : Contents s
  calls : ∀ t call m, (s.thr t).pc.call = some call → call.op ≠ .mutexDestroy m
  /-- A slot that is reserved for a `LOCK` has its label. -/
  locks : ∀ p t m f, s.At p t (.log (.logSyncOpEvent .lock m) f) → ∃ i, s.rep i = some f
  /-- Signals wake threads when there is more than one thread. -/
  waiting : ∀ t call depth i, (s.thr t).pc = .waiting call depth (some i) → ∃ I, s.started = some I ∧ I ≤ i
  awake : ∀ k t c m i, s.At k t (.awake c m (some i)) → ∃ I, s.started = some I ∧ I ≤ i

theorem SyncInv.init : SyncInv init where
  contents := .init
  calls := fun t call m h => by
    by_cases ht : t = 0
    · simp [Interface.init, ht, Pc.call] at h
    · simp [Interface.init, ht, Pc.call] at h
  locks := fun p t m f h => by cases h
  waiting := fun t call depth i h => by
    by_cases ht : t = 0
    · simp [Interface.init, ht] at h
    · simp [Interface.init, ht] at h
  awake := fun k t c m i h => by cases h

section Step

variable (h : SyncInv s) (hinv : RunInv cfg s) (hstep : Stepped cfg s a s')

include h hinv hstep in
theorem SyncInv.locks_step {p t f : ℕ} {m : Addr} (hat : s'.At p t (.log (.logSyncOpEvent .lock m) f)) :
    ∃ i, s'.rep i = some f := by
  have hrec := recorded_of_step hstep
  rcases hrec.at hat with hat | ⟨rfl, rfl, hbusy, hhist⟩
  · obtain ⟨i, hi⟩ := h.locks p t m f hat
    exact ⟨i, hrec.rep_some (hinv.phase _) (hinv.labels.rep_lt hi) hi⟩
  · obtain ⟨-, rfl, -, -, call, next, hpc, -, hrep⟩ := hrec.reserved hhist
    have hp := hinv.phase a.thread
    rcases (hinv.shape a.thread).log hpc with ⟨todo, slot, -, -, ⟨hlogs, -⟩ | ⟨-, hacc⟩⟩ |
      ⟨r, todo, lab, heq, rfl, ⟨-, hlogs, -⟩ | ⟨-, ⟨hc, -⟩ | ⟨hc, -⟩⟩⟩
    · obtain ⟨op, inst, st, sl⟩ := call
      cases op <;> cases hlogs
    · rcases hacc with hacc | hacc <;> cases hacc
    · rw [heq] at hp
      cases lab with
      | some i => exact ⟨i, hrep i rfl⟩
      | none =>
        -- only the hook of an operation that may leave no label logs a `LOCK` without one
        have hleaves := hp.2.2 rfl
        have hno := h.calls a.thread call m (by rw [heq]; rfl)
        obtain ⟨op, inst, st, sl⟩ := call
        cases op with
        | mutexLock => cases hleaves
        | mutexDestroy m' =>
          cases hlogs
          exact absurd rfl hno
        | _ => cases hlogs
    · cases hc
    · cases hc

include h hinv hstep in
theorem SyncInv.waiting_step {t depth i : ℕ} {call : Call} (hpc : (s'.thr t).pc = .waiting call depth (some i)) :
    ∃ I, s'.started = some I ∧ I ≤ i := by
  rcases woken_of_step hstep hpc with hpc | ⟨c, m, -, rfl, hat⟩
  · obtain ⟨I, hI, hle⟩ := h.waiting t call depth i hpc
    exact ⟨I, started_some hstep hI, hle⟩
  have hrec := recorded_of_step hstep
  rcases hrec.at hat with hat | ⟨-, -, -, hhist⟩
  · exact absurd hat.lt (lt_irrefl _)
  obtain ⟨slot, -, -, call', hcall, -, hdone⟩ := hrec.performed hhist rfl
  have ht : t ≠ a.thread := by
    rintro rfl
    cases hpc.symm.trans hdone
  cases hst : s.started with
  | some I => exact ⟨I, started_some hstep hst, hinv.labels.start I hst⟩
  | none =>
    -- before the start there is one thread only
    exfalso
    have hzero : a.thread = 0 := by
      by_contra hne
      cases hcall.symm.trans (hinv.log.start.other hst _ hne)
    have habsent := hinv.log.start.other hst t fun h0 => ht (h0.trans hzero.symm)
    rcases thr_of_ne hstep ht with heq | ⟨-, -, -, heq⟩ | ⟨call'', depth', j, hw, -⟩
    · rw [heq, habsent] at hpc
      cases hpc
    · rw [heq] at hpc
      cases hpc
    · cases hw.symm.trans habsent

include h hinv hstep in
/-- **One step.** -/
theorem SyncInv.step (hen : cfg.log.enable = true) (hno : NoDestroy s a) (hab : s'.log.aborted = none) :
    SyncInv s' := by
  have hrec := recorded_of_step hstep
  refine ⟨h.contents.step hinv hen hstep hab, fun t call m hcall => ?_, fun p t m f hat => h.locks_step hinv hstep hat,
    fun t call depth i hpc => h.waiting_step hinv hstep hpc, fun k t c m i hat => ?_⟩
  · rcases call_of_step hstep hcall with hcall | rfl
    · exact h.calls t call m hcall
    · intro hop
      simp [NoDestroy, Action.destroys, hop] at hno
  · rcases hrec.at hat with hat | ⟨rfl, rfl, -, hhist⟩
    · obtain ⟨I, hI, hle⟩ := h.awake k t c m i hat
      exact ⟨I, started_some hstep hI, hle⟩
    · obtain ⟨slot, -, -, -, call, depth, hpc, -⟩ := hrec.performed hhist rfl
      obtain ⟨I, hI, hle⟩ := h.waiting _ call depth i hpc
      exact ⟨I, started_some hstep hI, hle⟩

end Step

/-! ### The order of the events -/

/-- **A legal order** of the events of the log. -/
structure LegalOrder (s : State) : Prop where
  /-- The `CREATE` of a thread comes before all its events. -/
  create : ∀ n n' e e', s.log.events n = some e → s.log.events n' = some e' → e.opTy = .create →
    e'.tid = e.remoteTid → n < n'
  /-- And its `JOIN` after all of them. -/
  join : ∀ n n' e e', s.log.events n = some e → s.log.events n' = some e' → e.opTy = .join →
    e'.tid = e.remoteTid → n' < n
  /-- Between a `LOCK` and one of another thread the first thread unlocks the mutex. -/
  lock : ∀ n n' e e', s.log.events n = some e → s.log.events n' = some e' → n < n' → e.opTy = .lock →
    e'.opTy = .lock → e'.varAddr = e.varAddr → e'.tid ≠ e.tid → ∃ r f, n < r ∧ r < n' ∧
      s.log.events r = some f ∧ f.opTy = .unlock ∧ f.varAddr = e.varAddr ∧ f.tid = e.tid
  /-- The signal that woke a thread comes before its `AWAKE`. -/
  awake : ∀ n' e', s.log.events n' = some e' → e'.opTy = .awake → ∃ i m cause,
    s.At i e'.tid (.awake e'.varAddr m cause) ∧ s.rep i = some (n' - 1) ∧ ∀ j, cause = some j →
      ∃ n e, s.At j e.tid (.signal e'.varAddr j) ∧ s.rep j = some n ∧ n < n' ∧ s.log.events n = some e ∧
        e.varAddr = e'.varAddr ∧ (e.opTy = .signal ∨ e.opTy = .broadcast)

theorem Act.takesMutex.owned {m : Addr} {x : Act} (h : x.takesMutex m) : x.owned = some m := by
  cases x with
  | acquire | awake =>
    cases h
    rfl
  | _ => exact h.elim

/-- The event of a signal. -/
theorem signal_of_loggedAs {c : Addr} {i : ℕ} {lc : LogCall} {e : Event} (hx : (Act.signal c i).logsBefore lc)
    (h : e.LoggedAs lc 0) : (e.opTy = .signal ∨ e.opTy = .broadcast) ∧ e.varAddr = c := by
  unfold Event.LoggedAs at h
  rcases hx with rfl | rfl
  · cases hop : e.opTy with
    | signal =>
      rw [hop] at h
      cases h.1
      exact ⟨Or.inl rfl, rfl⟩
    | _ => simp [hop, LogCall.isAccess] at h
  · cases hop : e.opTy with
    | broadcast =>
      rw [hop] at h
      cases h.1
      exact ⟨Or.inr rfl, rfl⟩
    | _ => simp [hop, LogCall.isAccess] at h

section Inv

variable (hinv : RunInv cfg s) (h : SyncInv s)

include hinv in
/-- The creation of a `CREATE`. -/
theorem spawn_of_event {n : ℕ} {e : Event} (he : s.log.events n = some e) (hop : e.opTy = .create) :
    ∃ i, s.At i e.tid (.spawn e.remoteTid) ∧ s.place n < i := by
  obtain ⟨-, -, hcreate⟩ := hinv.events n e (Or.inl he)
  obtain ⟨i, hrep, hi⟩ := hcreate hop
  obtain ⟨t, act, lc, hi', -, -, -, ⟨-, hlt, -⟩ | ⟨hlogs, -⟩⟩ := hinv.labels.rep i n hrep
  · exact ⟨i, hi, hlt⟩
  · obtain ⟨-, rfl⟩ := hi.unique hi'
    exact hlogs.elim

include hinv in
/-- The join of a `JOIN`. -/
theorem joined_of_event {n : ℕ} {e : Event} (he : s.log.events n = some e) (hop : e.opTy = .join) :
    ∃ i, s.At i e.tid (.joined e.remoteTid) ∧ i < s.place n := by
  obtain ⟨hn, lc, f, hf, hat, hlog⟩ := hinv.label_of_event he
  rw [Event.LoggedAs, hop] at hlog
  obtain ⟨rfl, hd⟩ := hlog
  obtain rfl : f = n := by omega
  obtain ⟨i, hrep⟩ := hinv.labels.behind _ _ _ _ hat (Or.inl ⟨_, rfl⟩)
  obtain ⟨act, hi, hlogs, hlt, -⟩ := hinv.label_behind hrep hat rfl
  cases act with
  | joined c =>
    cases hlogs
    exact ⟨i, hi, hlt⟩
  | acquire m => rcases hlogs with hlogs | hlogs <;> cases hlogs
  | _ => cases hlogs

include hinv in
theorem create_before {n n' : ℕ} {e e' : Event} (he : s.log.events n = some e) (he' : s.log.events n' = some e')
    (hop : e.opTy = .create) (htid : e'.tid = e.remoteTid) : n < n' := by
  obtain ⟨i, hi, hlt⟩ := spawn_of_event hinv he hop
  obtain ⟨-, lc, f, -, hat, -⟩ := hinv.label_of_event he'
  rw [htid] at hat
  exact hinv.places.lt_of_place_lt (hinv.label_of_event he).1 (hlt.trans ((hinv.threads.spawned i _ _ hi).2 _ _ hat))

include hinv in
theorem join_after {n n' : ℕ} {e e' : Event} (he : s.log.events n = some e) (he' : s.log.events n' = some e')
    (hop : e.opTy = .join) (htid : e'.tid = e.remoteTid) : n' < n := by
  obtain ⟨i, hi, hlt⟩ := joined_of_event hinv he hop
  obtain ⟨hn', lc, f, -, hat, -⟩ := hinv.label_of_event he'
  rw [htid] at hat
  exact hinv.places.lt_of_place_lt hn' (((hinv.threads.joined i _ _ hi).2 _ _ hat).trans hlt)

/-- The acquisition of a `LOCK`. -/
structure AcquiredBy (s : State) (n : ℕ) (e : Event) (i : ℕ) (x : Act) : Prop where
  at_label : s.At i e.tid x
  takes : x.takesMutex e.varAddr
  lt : i < s.place n
  next : ∀ j act, s.At j e.tid act → j ≤ i ∨ s.place n ≤ j

include hinv in
/-- The acquisition whose slot a `LOCK` or a `TRYLOCK` is in. -/
theorem acquiredBy_of_rep {n i : ℕ} {e : Event} {lc : LogCall} (hat : s.At (s.place n) e.tid (.log lc n))
    (hrep : s.rep i = some n) (hlc : (∃ ty, lc = .logSyncOpEvent ty e.varAddr ∧ (ty = .lock ∨ ty = .trylock)) ∨
      ∃ c, lc = .logCondAwakeEvent e.varAddr c) : ∃ x, AcquiredBy s n e i x := by
  have hbehind : lc.isBehind := by
    rcases hlc with ⟨ty, rfl, rfl | rfl⟩ | ⟨c, rfl⟩ <;> rfl
  obtain ⟨x, hi, hlogs, hlt, hnext⟩ := hinv.label_behind hrep hat hbehind
  refine ⟨x, hi, ?_, hlt, fun j act hj => hnext j _ act hj (Or.inl rfl)⟩
  cases x with
  | acquire m =>
    rcases hlc with ⟨ty, rfl, -⟩ | ⟨c, rfl⟩
    · rcases hlogs with hlogs | hlogs
      · cases hlogs
        rfl
      · cases hlogs
        rfl
    · rcases hlogs with hlogs | hlogs <;> cases hlogs
  | awake c m cause =>
    rcases hlc with ⟨ty, rfl, -⟩ | ⟨c', rfl⟩
    · cases hlogs
    · cases hlogs
      rfl
  | joined c => rcases hlc with ⟨ty, rfl, -⟩ | ⟨c', rfl⟩ <;> cases hlogs
  | _ => cases hlogs

include hinv h in
theorem acquired_of_lock {n : ℕ} {e : Event} (he : s.log.events n = some e) (hop : e.opTy = .lock) :
    (∃ lc, s.At (s.place n) e.tid (.log lc n) ∧ lc.isBehind) ∧ ∃ i x, AcquiredBy s n e i x := by
  obtain ⟨hn, lc, f, hf, hat, hlog⟩ := hinv.label_of_event he
  rw [Event.LoggedAs, hop] at hlog
  obtain ⟨hlc, hd⟩ := hlog
  obtain rfl : f = n := by omega
  rcases hlc with rfl | ⟨c, rfl⟩
  · obtain ⟨i, hrep⟩ := h.locks _ _ _ _ hat
    exact ⟨⟨_, hat, rfl⟩, i, acquiredBy_of_rep hinv hat hrep (Or.inl ⟨_, rfl, Or.inl rfl⟩)⟩
  · obtain ⟨i, hrep⟩ := hinv.labels.behind _ _ _ _ hat (Or.inr ⟨_, _, rfl⟩)
    exact ⟨⟨_, hat, rfl⟩, i, acquiredBy_of_rep hinv hat hrep (Or.inr ⟨c, rfl⟩)⟩

include hinv h in
/-- **Sections do not overlap.** -/
theorem unlock_between {n n' : ℕ} {e e' : Event} (he : s.log.events n = some e) (he' : s.log.events n' = some e')
    (hlt : n < n') (hop : e.opTy = .lock) (hop' : e'.opTy = .lock) (hm : e'.varAddr = e.varAddr)
    (htid : e'.tid ≠ e.tid) : ∃ r f, n < r ∧ r < n' ∧ s.log.events r = some f ∧ f.opTy = .unlock ∧
      f.varAddr = e.varAddr ∧ f.tid = e.tid := by
  obtain ⟨⟨lc, hat, hlc⟩, i, x, hx⟩ := acquired_of_lock hinv h he hop
  obtain ⟨⟨lc', hat', -⟩, i', x', hx'⟩ := acquired_of_lock hinv h he' hop'
  have hn := (hinv.label_of_event he).1
  have hn' := (hinv.label_of_event he').1
  have hle := hinv.places.mono n n' hlt.le hn'
  have howned := hx.takes.owned
  have howned' := hx'.takes.owned
  rw [hm] at howned'
  rcases Nat.lt_trichotomy i i' with hii | rfl | hii
  · obtain ⟨k, hik, hki, hk⟩ :=
      hinv.owners.excl i i' _ _ _ _ _ hii hx.at_label hx'.at_label howned howned' htid.symm
    have hnk : s.place n < k := by
      refine lt_of_le_of_ne ((hx.next k _ hk).resolve_left (by omega)) fun heq => ?_
      rw [heq] at hat
      cases (hat.unique hk).2
    obtain ⟨I, hI, hIn⟩ := hinv.labels.logged _ _ _ _ hat
    obtain ⟨r, lcr, -, hr, hrsz, hatr, hrk, hnext⟩ := hinv.slot_before hk rfl ⟨I, hI, by omega⟩ fun F hF =>
      hki.trans (hinv.labels.inside _ _ _ _ hat' F hF i' _ x' hx'.lt hx'.at_label hx'.takes.isAfter.2 (Or.inl rfl))
    have hnr : n < r := by
      refine hinv.places.lt_of_place_lt hn (lt_of_le_of_ne ((hnext _ _ hat).resolve_right (by omega)) fun heq => ?_)
      rw [heq] at hat
      obtain ⟨-, hlabel⟩ := hat.unique hatr
      cases hlabel
      exact not_logsBefore hlc hr
    have hrn' : r < n' := hinv.places.lt_of_place_lt hrsz ((hrk.trans hki).trans hx'.lt)
    obtain ⟨f, hf, hftid, hlog⟩ := stored_of_release h.contents hinv hr rfl hatr hk hrk
    obtain ⟨hfop, hfm⟩ := unlock_of_release hr hlog
    exact ⟨r, f, hnr, hrn', hf, hfop, hfm, hftid⟩
  · exact absurd (hx'.at_label.unique hx.at_label).1 htid
  · -- the other thread would have released the mutex before it logs the `LOCK`
    obtain ⟨k, hik, hki, hk⟩ :=
      hinv.owners.excl i' i _ _ _ _ _ hii hx'.at_label hx.at_label howned' howned htid
    have hlti := hx.lt
    rcases hx'.next k _ hk with hle' | hle' <;> omega

include hinv h in
/-- The signal that woke a thread. -/
theorem signal_before {n' : ℕ} {e' : Event} (he' : s.log.events n' = some e') (hop : e'.opTy = .awake) :
    ∃ i m cause, s.At i e'.tid (.awake e'.varAddr m cause) ∧ s.rep i = some (n' - 1) ∧ ∀ j, cause = some j →
      ∃ n e, s.At j e.tid (.signal e'.varAddr j) ∧ s.rep j = some n ∧ n < n' ∧ s.log.events n = some e ∧
        e.varAddr = e'.varAddr ∧ (e.opTy = .signal ∨ e.opTy = .broadcast) := by
  obtain ⟨hn', lc, f, hf, hat, hlog⟩ := hinv.label_of_event he'
  rw [Event.LoggedAs, hop] at hlog
  obtain ⟨⟨m, rfl⟩, hd⟩ := hlog
  obtain ⟨hfsz, hpf, -⟩ := hinv.places.first _ _ _ _ hat
  obtain ⟨i, hrep⟩ := hinv.labels.behind _ _ _ _ hat (Or.inr ⟨_, _, rfl⟩)
  rw [← hpf] at hat
  obtain ⟨x, hi, hlogs, hlt, -⟩ := hinv.label_behind hrep hat rfl
  obtain ⟨cause, rfl⟩ : ∃ cause, x = .awake e'.varAddr m cause := by
    cases x with
    | awake c m' cause =>
      cases hlogs
      exact ⟨cause, rfl⟩
    | acquire m' => rcases hlogs with hlogs | hlogs <;> cases hlogs
    | _ => cases hlogs
  refine ⟨i, m, cause, hi, by rw [hrep]; congr 1; omega, ?_⟩
  rintro j rfl
  obtain ⟨hji, u, hj⟩ := hinv.threads.awake _ _ _ _ _ hi
  obtain ⟨n, lcn, hrepn, hn, hnsz, hatn, hnj, -⟩ := hinv.slot_before hj rfl (h.awake _ _ _ _ _ hi) fun F hF =>
    hji.trans (hinv.labels.inside _ _ _ _ hat F hF i _ _ hlt hi rfl (Or.inl rfl))
  obtain ⟨e, he, rfl, hlog⟩ := stored_of_release h.contents hinv hn rfl hatn hj hnj
  obtain ⟨hop', hc⟩ := signal_of_loggedAs hn hlog
  refine ⟨n, e, hj, hrepn, ?_, he, hc, hop'⟩
  apply hinv.places.lt_of_place_lt hnsz
  rw [← hpf]
  omega

include hinv h in
theorem legalOrder_of_inv : LegalOrder s where
  create := fun _ _ _ _ he he' hop htid => create_before hinv he he' hop htid
  join := fun _ _ _ _ he he' hop htid => join_after hinv he he' hop htid
  lock := fun _ _ _ _ he he' hlt hop hop' hm htid => unlock_between hinv h he he' hlt hop hop' hm htid
  awake := fun _ _ he hop => signal_before hinv h he hop

end Inv

/-- A step that stores nothing. -/
theorem LegalOrder.mono (h : LegalOrder s) (hrec : Recorded s a s')
    (hphase : Phase s a.thread (s.thr a.thread).pc) (hev : s'.log.events = s.log.events) : LegalOrder s' where
  create := by
    rw [hev]
    exact h.create
  join := by
    rw [hev]
    exact h.join
  lock := by
    rw [hev]
    exact h.lock
  awake := by
    rw [hev]
    intro n' e' he hop
    obtain ⟨i, m, cause, hi, hrep, hsig⟩ := h.awake n' e' he hop
    refine ⟨i, m, cause, hrec.mono hi, hrec.rep_some hphase hi.lt hrep, fun j hj => ?_⟩
    obtain ⟨n, e, hat, hrepn, hrest⟩ := hsig j hj
    exact ⟨n, e, hrec.mono hat, hrec.rep_some hphase hat.lt hrepn, hrest⟩

/-- A step that stops the program stores nothing. -/
theorem events_of_aborted (hstep : Stepped cfg s a s') (hab : s.log.aborted = none) (hab' : s'.log.aborted ≠ none) :
    s'.log.events = s.log.events := by
  rcases log_of_step hstep with hq | ⟨t, call, lc, next, l, rfl, -, -, hex, -⟩ | ⟨t, l, rfl, hst, -⟩
  · exact hq.events
  · have hev := exec_events cfg.log call.isOnStack call.inst t s.log (s.thr t).log lc
    rwa [hex] at hev
  · rw [store_aborted hst] at hab'
    exact absurd hab hab'

/-- **The logged order is legal** in every state of a run in which no mutex is destroyed. -/
theorem legalOrder (hen : cfg.log.enable = true) (h : ReachableBy cfg NoDestroy s) : LegalOrder s := by
  have hinv : ∀ {s : State}, ReachableBy cfg NoDestroy s → s.log.aborted = none → RunInv cfg s ∧ SyncInv s :=
    fun h hab => runInv_of_reachable (I := SyncInv) hen h hab .init
      fun s a s' hinv hsync hno hstep hab' => hsync.step hinv hstep hen hno hab'
  by_cases hab : s.log.aborted = none
  · obtain ⟨hinv, hsync⟩ := hinv h hab
    exact legalOrder_of_inv hinv hsync
  cases h with
  | refl => exact absurd rfl hab
  | @tail s₀ a _ h₀ ha hs =>
    obtain ⟨hab₀, hstep⟩ := step_cases hs
    obtain ⟨hinv₀, hsync₀⟩ := hinv h₀ hab₀
    exact (legalOrder_of_inv hinv₀ hsync₀).mono (recorded_of_step hstep) (hinv₀.phase _)
      (events_of_aborted hstep hab₀ hab)

/-- Thread 1 waits for a condition variable until thread 0 signals it. -/
theorem legalOrder_wait : ∃ s : State, s.log.logSz = 9 ∧ LegalOrder s := by
  have hrun : ((exec (restrict (step traced) NoDestroy) init
      [.call 0 (plainCall .create), .exec 0, .exec 0, .ret 0, .real 0 .ok, .second 0, .exec 0, .exec 0,
        .store 0, .exec 0, .ret 0, .call 1 (plainCall (.mutexLock 8)), .exec 1, .ret 1, .real 1 .ok, .second 1,
        .exec 1, .exec 1, .store 1, .ret 1, .call 1 (plainCall (.condWait 100 8)), .exec 1, .exec 1, .store 1,
        .store 1, .ret 1, .real 1 .ok, .call 0 (plainCall (.mutexLock 8)), .exec 0, .ret 0, .real 0 .ok, .second 0,
        .exec 0, .exec 0, .store 0, .ret 0, .call 0 (plainCall (.condSignal 100)), .exec 0, .exec 0, .store 0,
        .ret 0, .real 0 (.wakes [1]), .second 0, .exec 0, .ret 0, .call 0 (plainCall (.mutexUnlock 8)), .exec 0,
        .exec 0, .store 0, .ret 0, .real 0 .ok, .wakeUp 1, .second 1, .exec 1, .exec 1, .store 1, .store 1]).map
          fun s => s.log.logSz) = some 9 := by
    decide +kernel
  obtain ⟨s, hs, hsz⟩ := Option.map_eq_some_iff.mp hrun
  exact ⟨s, hsz, legalOrder rfl (Reach.of_exec hs)⟩

end Schnauzer.Interface
