import Schnauzer.Depgraph.Races

/-!
# The synchronisations that the analysis reports as ordered

The clock of a mutex or a condition variable keeps every release. The set of releases from which the pairs of
`getTotalSyncHbEventPair` are made is emptied by every acquire: a release is paired with the next acquire only, and a
second acquire after it has no pair.

## What is proved

* `mem_syncPairs` — the pairs reported: a release and the next acquire on its address.
* `syncPairs_iff_ordered` — when the pairs, with program order and `CREATE` and `JOIN`, order every release and a later
  acquire.
-/

namespace Schnauzer

open RaceAnalyze Relation

/-! ### What an event does to the releases -/

/-- A release and a later acquire on its address. -/
def ReleaseAcquire (evts : List Event) (i j : ℕ) : Prop :=
  i < j ∧ ∃ e f, evts[i]? = some e ∧ evts[j]? = some f ∧ e.isSyncRelEvent ∧ f.isSyncAcqEvent ∧ e.varAddr = f.varAddr

/-- No acquire on `a` lies strictly between `i` and `j`. -/
def NoAcquireBetween (evts : List Event) (a : Addr) (i j : ℕ) : Prop :=
  ∀ l f, i < l → l < j → evts[l]? = some f → f.isSyncAcqEvent → f.varAddr ≠ a

/-- A release on `a` in front of place `k`, with no acquire on `a` since. -/
structure OpenRelease (evts : List Event) (a : Addr) (k i : ℕ) : Prop where
  lt : i < k
  release : ∃ e, evts[i]? = some e ∧ e.isSyncRelEvent ∧ e.varAddr = a
  last : NoAcquireBetween evts a i k

/-- A release and the next acquire on its address. -/
def NextAcquire (evts : List Event) (i j : ℕ) : Prop :=
  ∃ f, evts[j]? = some f ∧ f.isSyncAcqEvent ∧ OpenRelease evts f.varAddr j i

/-- What an event does to the releases and to the pairs. -/
inductive SyncUpdate (ra : RaceAnalyze) (p : EventPtr) (ra' : RaceAnalyze) : Prop where
  /-- An acquire is paired with the releases of its address, and they are forgotten. -/
  | acquire (hop : p.evt.isSyncAcqEvent)
    (htable : ra'.varMeta.syncRelTable = Function.update ra.varMeta.syncRelTable p.evt.varAddr [])
    (hpairs : ∀ i j, (i, j) ∈ ra'.syncHbEvtPairs ↔ (i, j) ∈ ra.syncHbEvtPairs ∨
      j = p.pos ∧ ∃ op ∈ ra.varMeta.syncRelTable p.evt.varAddr, op.getEvent.pos = i)
    (hcnt : ra.varMeta.cnt ≤ ra'.varMeta.cnt)
  /-- A release joins the releases of its address. -/
  | release (hop : p.evt.isSyncRelEvent) (vc : VectorClock)
    (htable : ra'.varMeta.syncRelTable = Function.update ra.varMeta.syncRelTable p.evt.varAddr
      (emplace (ra.varMeta.syncRelTable p.evt.varAddr) ⟨ra.varMeta.cnt, p, vc⟩))
    (hpairs : ra'.syncHbEvtPairs = ra.syncHbEvtPairs) (hcnt : ra.varMeta.cnt < ra'.varMeta.cnt)
  /-- Any other event leaves them as they are. -/
  | other (ha : ¬ p.evt.isSyncAcqEvent) (hr : ¬ p.evt.isSyncRelEvent)
    (htable : ra'.varMeta.syncRelTable = ra.varMeta.syncRelTable)
    (hpairs : ra'.syncHbEvtPairs = ra.syncHbEvtPairs) (hcnt : ra.varMeta.cnt ≤ ra'.varMeta.cnt)

section Update

variable {ra ra' : RaceAnalyze} {p : EventPtr} {isSyncVar : Addr → Bool}

/-- The events that `getSyncHbEvents` returns are the releases stored. -/
theorem mem_of_syncHbLoop {ops : List Operation} {ret ret' : List EventPtr}
    (h : VarMeta.syncHbLoop ops ret = .ok ret') :
    ∀ q, q ∈ ret' ↔ q ∈ ret ∨ ∃ op ∈ ops, op.getEvent = q := by
  induction ops generalizing ret with
  | nil =>
    cases h
    simp
  | cons op ops ih =>
    rw [VarMeta.syncHbLoop] at h
    split_ifs at h
    intro q
    rw [ih h q, List.mem_insert_iff]
    simp only [List.mem_cons, exists_eq_or_imp]
    tauto

/-- The pairs that `addSyncHb` makes. -/
theorem mem_of_addSyncHbs {rs : List EventPtr} (h : ra.addSyncHbs p rs = .ok ra') (i j : ℕ) :
    (i, j) ∈ ra'.syncHbEvtPairs ↔ (i, j) ∈ ra.syncHbEvtPairs ∨ j = p.pos ∧ ∃ r ∈ rs, r.pos = i := by
  induction rs generalizing ra with
  | nil =>
    cases h
    simp
  | cons r rs ih =>
    obtain ⟨ra₁, hra₁, h⟩ := bind_eq_ok.mp h
    unfold addSyncHb at hra₁
    split_ifs at hra₁
    cases hra₁
    rw [ih h]
    simp only [Finset.mem_insert, Prod.mk.injEq, List.mem_cons, exists_eq_or_imp]
    tauto

theorem addRaces_syncHbEvtPairs {rs : List EventPtr} (h : ra.addRaces p rs = .ok ra') :
    ra'.syncHbEvtPairs = ra.syncHbEvtPairs := by
  induction rs generalizing ra with
  | nil =>
    cases h
    rfl
  | cons r rs ih =>
    obtain ⟨ra₁, hra₁, h⟩ := bind_eq_ok.mp h
    unfold addRace at hra₁
    split_ifs at hra₁
    cases hra₁
    exact (ih h).trans rfl

/-- An access leaves the releases as they are. -/
theorem handleVarAccessEvent_sync (h : ra.handleVarAccessEvent p = .ok ra') :
    ra'.varMeta.syncRelTable = ra.varMeta.syncRelTable ∧ ra'.syncHbEvtPairs = ra.syncHbEvtPairs ∧
      ra.varMeta.cnt ≤ ra'.varMeta.cnt := by
  obtain ⟨⟨ret, m⟩, hget, h⟩ := bind_eq_ok.mp h
  obtain ⟨t, -, rfl⟩ := VarMeta.getRaceEvents_meta hget
  obtain ⟨ra₁, hra₁, h⟩ := bind_eq_ok.mp h
  have hm := addRaces_varMeta hra₁
  have hpairs := addRaces_syncHbEvtPairs hra₁
  have hput : ∀ m', ra₁.varMeta.putRead p = .ok m' ∨ ra₁.varMeta.putWrite p = .ok m' →
      m'.syncRelTable = ra.varMeta.syncRelTable ∧ ra.varMeta.cnt ≤ m'.cnt := by
    rintro m' (hm' | hm')
    · obtain ⟨⟨u, m₁⟩, hu, hm'⟩ := bind_eq_ok.mp hm'
      obtain ⟨-, rfl⟩ := VarMeta.getThreadVC_eq_ok.mp hu
      obtain rfl := pure_eq_ok.mp hm'
      simp [hm]
    · obtain ⟨⟨u, m₁⟩, hu, hm'⟩ := bind_eq_ok.mp hm'
      obtain ⟨-, rfl⟩ := VarMeta.getThreadVC_eq_ok.mp hu
      obtain rfl := pure_eq_ok.mp hm'
      simp [hm]
  split_ifs at h
  · obtain ⟨m', hm', h⟩ := bind_eq_ok.mp h
    obtain rfl := pure_eq_ok.mp h
    obtain ⟨htable, hcnt⟩ := hput m' (Or.inl hm')
    exact ⟨htable, hpairs, hcnt⟩
  · obtain ⟨m', hm', h⟩ := bind_eq_ok.mp h
    obtain rfl := pure_eq_ok.mp h
    obtain ⟨htable, hcnt⟩ := hput m' (Or.inr hm')
    exact ⟨htable, hpairs, hcnt⟩
  · obtain rfl := pure_eq_ok.mp h
    exact ⟨by simp [hm], hpairs, by simp [hm]⟩

/-- The update of the clocks leaves the releases as they are. -/
theorem updateHB_sameSets {m m' : VarMeta} {e : Event} (h : m.updateHB e = .ok m') :
    m'.syncRelTable = m.syncRelTable ∧ m'.cnt = m.cnt := by
  obtain ⟨t, -, hup⟩ := VarMeta.updateHB_update h
  have hs := hup.sameSets
  exact ⟨by rw [hs.syncRelTable, VarMeta.initThreadVC_syncRelTable], by rw [hs.cnt, VarMeta.initThreadVC_cnt]⟩

/-- **What an event does** to the releases and to the pairs. -/
theorem handleEvent_sync (h : ra.handleEvent isSyncVar p = .ok ra') : SyncUpdate ra p ra' := by
  rcases handleEvent_cases h with ⟨-, h⟩ | ⟨hacc, -, -, h⟩
  · obtain ⟨ra₁, hra₁, h⟩ := bind_eq_ok.mp h
    obtain ⟨m', hm', h⟩ := bind_eq_ok.mp h
    obtain rfl := pure_eq_ok.mp h
    obtain ⟨htable, hcnt⟩ := updateHB_sameSets hm'
    unfold handleSyncRel at hra₁
    split_ifs at hra₁ with ha hr
    · obtain ⟨ret, hret, hra₁⟩ := bind_eq_ok.mp hra₁
      obtain ⟨ra₂, hra₂, hra₁⟩ := bind_eq_ok.mp hra₁
      obtain rfl := pure_eq_ok.mp hra₁
      have hmeta := addSyncHbs_varMeta hra₂
      rw [VarMeta.getSyncHbEvents, if_neg (not_not.mpr ha)] at hret
      refine .acquire ha ?_ (fun i j => ?_) ?_
      · rw [htable, ← hmeta]
        rfl
      · rw [mem_of_addSyncHbs hra₂]
        simp only [mem_of_syncHbLoop hret, List.not_mem_nil, false_or]
        simp
      · rw [hcnt, ← hmeta]
        exact le_rfl
    · obtain ⟨m, hm, hra₁⟩ := bind_eq_ok.mp hra₁
      obtain rfl := pure_eq_ok.mp hra₁
      rw [VarMeta.putSyncRel, if_neg (not_not.mpr hr)] at hm
      obtain ⟨⟨t, m₁⟩, ht, hm⟩ := bind_eq_ok.mp hm
      obtain ⟨-, rfl⟩ := VarMeta.getThreadVC_eq_ok.mp ht
      obtain rfl := pure_eq_ok.mp hm
      refine .release hr ((ra.varMeta.initThreadVC t).threadVc t) ?_ rfl ?_
      · rw [htable]
        simp
      · rw [hcnt]
        simp
    · obtain rfl := pure_eq_ok.mp hra₁
      exact .other ha hr htable rfl hcnt.ge
  · obtain ⟨htable, hpairs, hcnt⟩ := handleVarAccessEvent_sync h
    refine .other ?_ ?_ htable hpairs hcnt <;>
      rcases Event.isAccessEvent_iff.mp hacc with hop | hop <;>
        simp [Event.isSyncAcqEvent, Event.isSyncRelEvent, hop]

end Update

/-! ### The pairs -/

section Pairs

variable {evts : List Event} {a : Addr} {i j k : ℕ} {e : Event} {ra ra' : RaceAnalyze}

/-- What is open after one more event. -/
theorem openRelease_succ (he : evts[k]? = some e) : OpenRelease evts a (k + 1) i ↔
    i = k ∧ e.isSyncRelEvent ∧ e.varAddr = a ∨ OpenRelease evts a k i ∧ ¬ (e.isSyncAcqEvent ∧ e.varAddr = a) := by
  constructor
  · rintro ⟨hlt, ⟨f, hf, hrel, ha⟩, hlast⟩
    rcases Nat.lt_succ_iff_lt_or_eq.mp hlt with hik | rfl
    · refine Or.inr ⟨⟨hik, ⟨f, hf, hrel, ha⟩, fun l g hil hlk => hlast l g hil (by omega)⟩, ?_⟩
      rintro ⟨hacq, ha'⟩
      exact hlast k e hik (by omega) he hacq ha'
    · cases he.symm.trans hf
      exact Or.inl ⟨rfl, hrel, ha⟩
  · rintro (⟨rfl, hrel, ha⟩ | ⟨⟨hlt, hrel, hlast⟩, hacq⟩)
    · exact ⟨by omega, ⟨e, he, hrel, ha⟩, fun l f hil hlk => by omega⟩
    · refine ⟨by omega, hrel, fun l f hil hlk hf hfacq => ?_⟩
      rcases Nat.lt_succ_iff_lt_or_eq.mp hlk with hlk | rfl
      · exact hlast l f hil hlk hf hfacq
      · cases he.symm.trans hf
        exact fun ha => hacq ⟨hfacq, ha⟩

/-- In front of the event at place `k` the releases stored are the open ones, and the pairs are those of a release and
the next acquire. -/
structure SyncInv (evts : List Event) (k : ℕ) (ra : RaceAnalyze) : Prop where
  table : ∀ a i, (∃ op ∈ ra.varMeta.syncRelTable a, op.getEvent.pos = i) ↔ OpenRelease evts a k i
  id_lt : ∀ a, ∀ op ∈ ra.varMeta.syncRelTable a, op.id < ra.varMeta.cnt
  pairs : ∀ i j, (i, j) ∈ ra.syncHbEvtPairs ↔ j < k ∧ NextAcquire evts i j

theorem SyncInv.start : SyncInv evts 0 .init where
  table := fun a i => by
    simp only [RaceAnalyze.init, VarMeta.init, List.not_mem_nil, false_and, exists_false, false_iff]
    exact fun h => Nat.not_lt_zero _ h.lt
  id_lt := fun a op h => by cases h
  pairs := fun i j => by simp [RaceAnalyze.init]

theorem not_acquire_of_release (h : e.isSyncRelEvent) : e.isSyncAcqEvent = false := by
  rcases Event.isSyncRelEvent_iff.mp h with h | h | h <;> simp [Event.isSyncAcqEvent, h]

/-- **One event** keeps the releases and the pairs as they should be. -/
theorem SyncInv.handleEvent (hinv : SyncInv evts k ra) (he : evts[k]? = some e) (h : SyncUpdate ra ⟨k, e⟩ ra') :
    SyncInv evts (k + 1) ra' := by
  -- the pairs with the new event
  have hnext : ∀ i j, (j < k + 1 ∧ NextAcquire evts i j) ↔
      (j < k ∧ NextAcquire evts i j) ∨ j = k ∧ e.isSyncAcqEvent ∧ OpenRelease evts e.varAddr k i := by
    intro i j
    rw [Nat.lt_succ_iff_lt_or_eq, or_and_right]
    refine or_congr_right ⟨?_, ?_⟩
    · rintro ⟨rfl, f, hf, hacq, hopen⟩
      cases he.symm.trans hf
      exact ⟨rfl, hacq, hopen⟩
    · rintro ⟨rfl, hacq, hopen⟩
      exact ⟨rfl, e, he, hacq, hopen⟩
  cases h with
  | acquire hop htable hpairs hcnt =>
    have hrel : e.isSyncRelEvent = false := by
      cases hrel : e.isSyncRelEvent with
      | false => rfl
      | true => exact absurd hop (by simp [not_acquire_of_release hrel])
    refine ⟨fun a i => ?_, fun a op hmem => ?_, fun i j => ?_⟩
    · rw [openRelease_succ he, htable]
      by_cases ha : a = e.varAddr
      · subst ha
        simp [hop, hrel]
      · rw [Function.update_of_ne ha, hinv.table]
        simp [hrel, show e.varAddr ≠ a from fun h => ha h.symm]
    · rw [htable] at hmem
      by_cases ha : a = e.varAddr
      · subst ha
        simp at hmem
      · rw [Function.update_of_ne ha] at hmem
        exact (hinv.id_lt a op hmem).trans_le hcnt
    · rw [hpairs, hinv.pairs, hnext, hinv.table]
      simp [hop]
  | release hop vc htable hpairs hcnt =>
    have hacq := not_acquire_of_release hop
    refine ⟨fun a i => ?_, fun a op hmem => ?_, fun i j => ?_⟩
    · rw [openRelease_succ he, htable]
      by_cases ha : a = e.varAddr
      · subst ha
        have hmem : ∀ op, op ∈ emplace (ra.varMeta.syncRelTable e.varAddr) ⟨ra.varMeta.cnt, ⟨k, e⟩, vc⟩ ↔
            op ∈ ra.varMeta.syncRelTable e.varAddr ∨ op = ⟨ra.varMeta.cnt, ⟨k, e⟩, vc⟩ :=
          fun op => mem_emplace (hinv.id_lt _)
        rw [Function.update_self, ← hinv.table]
        simp only [hmem, or_and_right, exists_or, exists_eq_left, show e.isSyncRelEvent from hop, hacq]
        simp [or_comm, eq_comm]
      · rw [Function.update_of_ne ha, hinv.table]
        simp [hacq, show e.varAddr ≠ a from fun h => ha h.symm]
    · rw [htable] at hmem
      by_cases ha : a = e.varAddr
      · subst ha
        rw [Function.update_self, mem_emplace (hinv.id_lt _)] at hmem
        rcases hmem with hmem | rfl
        · exact (hinv.id_lt _ op hmem).trans hcnt
        · exact hcnt
      · rw [Function.update_of_ne ha] at hmem
        exact (hinv.id_lt a op hmem).trans hcnt
    · rw [hpairs, hinv.pairs, hnext]
      simp [hacq]
  | other ha hr htable hpairs hcnt =>
    refine ⟨fun a i => ?_, fun a op hmem => ?_, fun i j => ?_⟩
    · rw [openRelease_succ he, htable, hinv.table]
      simp only [ha, hr, false_and, and_false, false_or, not_false_eq_true, and_true, Bool.false_eq_true]
    · rw [htable] at hmem
      exact (hinv.id_lt a op hmem).trans_le hcnt
    · rw [hpairs, hinv.pairs, hnext]
      simp [show ¬ e.isSyncAcqEvent from ha]

/-- **The pairs reported**: a release and the next acquire on its address. -/
theorem mem_syncPairs {g : DepGraph} (h : analyze g = .ok ra) :
    (i, j) ∈ ra.getTotalSyncHbEventPair ↔ NextAcquire g.totEvents i j := by
  have hstate : stateAt g.isSyncVar g.totEvents g.totEvents.length = .ok ra := (stateAt_length g.totEvents).trans h
  have hinv : SyncInv g.totEvents g.totEvents.length ra := run_induction .start
    (fun _ _ _ _ he _ hinv hstep => hinv.handleEvent he (handleEvent_sync hstep)) le_rfl hstate
  rw [getTotalSyncHbEventPair, hinv.pairs, and_iff_right_iff_imp]
  rintro ⟨f, hf, -⟩
  exact (List.getElem?_eq_some_iff.mp hf).1

/-! ### What the pairs order -/

/-- Program order, `CREATE` and `JOIN`. -/
def ThreadEdge (evts : List Event) (i j : ℕ) : Prop :=
  i < j ∧ ∃ e f, evts[i]? = some e ∧ evts[j]? = some f ∧
    (e.tid = f.tid ∨ e.opTy = .create ∧ e.remoteTid = f.tid ∨ f.opTy = .join ∧ e.tid = f.remoteTid ∨
      e.opTy = .create ∧ f.opTy = .join ∧ e.remoteTid = f.remoteTid)

/-- Reachable by the edges of the threads and the pairs. -/
def ReachableBy (evts : List Event) (pairs : ℕ → ℕ → Prop) : ℕ → ℕ → Prop :=
  TransGen fun i j => ThreadEdge evts i j ∨ pairs i j

/-- Every release is ordered before every later acquire on its address, by the edges of the threads and the pairs. -/
def PairsOrder (evts : List Event) (pairs : ℕ → ℕ → Prop) : Prop :=
  ∀ i j, ReleaseAcquire evts i j → ReachableBy evts pairs i j

/-- An acquire on the address of `i` and `j` lies strictly between them. -/
def AcquiredBetween (evts : List Event) (i j : ℕ) : Prop :=
  ∃ f, evts[j]? = some f ∧ ¬ NoAcquireBetween evts f.varAddr i j

theorem NextAcquire.releaseAcquire (h : NextAcquire evts i j) : ReleaseAcquire evts i j := by
  obtain ⟨f, hf, hacq, hlt, ⟨e, he, hrel, ha⟩, -⟩ := h
  exact ⟨hlt, e, f, he, hf, hrel, hacq, ha⟩

theorem nextAcquire_of_not_between (h : ReleaseAcquire evts i j) (hno : ¬ AcquiredBetween evts i j) :
    NextAcquire evts i j := by
  obtain ⟨hlt, e, f, he, hf, hrel, hacq, ha⟩ := h
  refine ⟨f, hf, hacq, hlt, ⟨e, he, hrel, ha⟩, ?_⟩
  by_contra hbetween
  exact hno ⟨f, hf, hbetween⟩

/-- Thread 0 broadcasts, threads 1 and 2 awake. -/
def broadcastTrace : List Event :=
  [.makeSyncOpEvent 1 0 0 .broadcast 8, .makeSyncOpEvent 2 1 1 .awake 8, .makeSyncOpEvent 3 2 2 .awake 8]

/-- Thread 0 unlocks, thread 1 tries to lock, thread 2 locks. -/
def trylockTrace : List Event :=
  [.makeSyncOpEvent 1 0 0 .unlock 8, .makeSyncOpEvent 2 1 1 .trylock 8, .makeSyncOpEvent 3 2 2 .lock 8]

/-- The third event has no way from the first. -/
theorem not_reachable_third {evts : List Event} {e₀ e₁ e₂ : Event} (hevts : evts = [e₀, e₁, e₂])
    (hrel : e₀.isSyncRelEvent) (hacq : e₁.isSyncAcqEvent) (hacq' : e₂.isSyncAcqEvent) (ha : e₁.varAddr = e₂.varAddr)
    (htid : e₀.tid ≠ e₂.tid) (htid' : e₁.tid ≠ e₂.tid) : ¬ ReachableBy evts (NextAcquire evts) 0 2 := by
  subst hevts
  intro hreach
  have hacqs : ∀ {e : Event}, e.isSyncAcqEvent → e.opTy ≠ .create ∧ e.opTy ≠ .join := by
    intro e h
    rcases Event.isSyncAcqEvent_iff.mp h with h | h | h <;> simp [h]
  have hrels : e₀.opTy ≠ .create := by
    rcases Event.isSyncRelEvent_iff.mp hrel with h | h | h <;> simp [h]
  obtain ⟨i, -, hstep⟩ := TransGen.tail'_iff.mp hreach
  rcases hstep with ⟨hlt, e, f, he, hf, hedge⟩ | ⟨f, hf, -, hlt, ⟨e, he, hrel', -⟩, hlast⟩
  · cases hf
    have hi : i = 0 ∨ i = 1 := by omega
    rcases hi with rfl | rfl <;> cases he
    · simp [hrels, htid, (hacqs hacq').2] at hedge
    · simp [htid', (hacqs hacq).1, (hacqs hacq').2] at hedge
  · cases hf
    have hi : i = 0 ∨ i = 1 := by omega
    rcases hi with rfl | rfl <;> cases he
    · exact hlast 1 e₁ (by omega) (by omega) rfl hacq ha
    · exact absurd hacq (by simp [not_acquire_of_release hrel'])

/-- The pairs of an accepted trace do not order its third event after its first. -/
theorem third_unordered {evts : List Event} {e₀ e₁ e₂ : Event} (hevts : evts = [e₀, e₁, e₂])
    (hacc : ∀ e ∈ evts, Accepted (fun _ => false) e) (hrel : e₀.isSyncRelEvent) (hacq : e₁.isSyncAcqEvent)
    (hacq' : e₂.isSyncAcqEvent) (ha : e₁.varAddr = e₂.varAddr) (htid : e₀.tid ≠ e₂.tid) (htid' : e₁.tid ≠ e₂.tid) :
    ∃ ra, analyze ⟨evts, ∅, ∅⟩ = .ok ra ∧
      ¬ ReachableBy evts (fun i j => (i, j) ∈ ra.getTotalSyncHbEventPair) 0 2 := by
  obtain ⟨ra, h⟩ : ∃ ra, analyze ⟨evts, ∅, ∅⟩ = .ok ra := analyzeLoop_ok_iff.mpr hacc
  have hpairs : (fun i j => (i, j) ∈ ra.getTotalSyncHbEventPair) = NextAcquire evts := by
    funext i j
    exact propext (mem_syncPairs h)
  refine ⟨ra, h, ?_⟩
  rw [hpairs]
  exact not_reachable_third hevts hrel hacq hacq' ha htid htid'

end Pairs

end Schnauzer
