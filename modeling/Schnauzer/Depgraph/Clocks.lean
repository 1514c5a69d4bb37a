import Schnauzer.Depgraph.ClockUpdate
import Schnauzer.Lib.LogicalClock

/-!
# The clocks of the analysis

The clocks say what happens before what. The thread clocks and the clocks of the
synchronisation variables together are logical clocks in the sense of `LogicalClock`:
every operation that passes a thread's clock on advances the thread's own tick, and the
lazy initialisation of `getThreadVC` is such an advance too.

## What is proved

* `ClockInv.update` — an event keeps the clocks representing happens-before.
* `clock_le_iff_happensBefore` — the clock stored with an access is below the clock of a
  later access exactly when the one happens before the other, and `isConcurrentWith`
  answers that they are not ordered.
-/

namespace Schnauzer

open CausalOrder LogicalClock

/-! ### What the events read and write -/

namespace Event

variable {e : Event} {t r : Fin MAX_THREAD}

theorem reads_of_join (ht : t.val = e.tid) (hr : r.val = e.remoteTid) (hop : e.opTy = .join) :
    e.reads = {home t, home r} := by
  ext x
  simp [reads, isSyncAcqEvent, hop, home, ht, hr]

theorem reads_of_acquire (ht : t.val = e.tid) (hop : e.isSyncAcqEvent) :
    e.reads = {home t, .var e.varAddr} := by
  have hj : e.opTy ≠ .join := by
    rintro h
    simp [isSyncAcqEvent, h] at hop
  ext x
  simp [reads, hop, hj, home, ht]

theorem reads_of_else (ht : t.val = e.tid) (hj : e.opTy ≠ .join) (ha : ¬ e.isSyncAcqEvent) :
    e.reads = {home t} := by
  ext x
  simp [reads, ha, hj, home, ht]

theorem writes_of_create (ht : t.val = e.tid) (hr : r.val = e.remoteTid) (hop : e.opTy = .create) :
    e.writes = {home t, home r} := by
  ext x
  simp [writes, isSyncRelEvent, hop, home, ht, hr]

theorem writes_of_release (ht : t.val = e.tid) (hop : e.isSyncRelEvent) :
    e.writes = {home t, .var e.varAddr} := by
  have hj : e.opTy ≠ .create := by
    rintro h
    simp [isSyncRelEvent, h] at hop
  ext x
  simp [writes, hop, hj, home, ht]

theorem writes_of_else (ht : t.val = e.tid) (hc : e.opTy ≠ .create) (hr : ¬ e.isSyncRelEvent) :
    e.writes = {home t} := by
  ext x
  simp [writes, hr, hc, home, ht]

end Event

/-! ### The invariant -/

section Invariant

variable (evts : List Event)

/-- The thread of the event at place `k`. -/
def ownerAt (k : ℕ) : Fin MAX_THREAD :=
  match evts[k]? with
  | some e => Fin.ofNat MAX_THREAD e.tid
  | none => 0

/-- In front of the event at place `k` the clocks say what the nodes know; `V` are the stamps of
the events so far. -/
structure ClockInv (V : ℕ → VectorClock) (k : ℕ) (m : VarMeta) : Prop where
  /-- The clocks represent happens-before. -/
  rep : Represents (readsAt evts) (writesAt evts) (ownerAt evts) home (fun i => (V i).getTick) k m.clocks
  /-- A clock in use has its first tick. -/
  pos : ∀ t, m.isThreadVcInit t → 0 < (m.threadVc t).getTick t

variable {evts} {V : ℕ → VectorClock} {k : ℕ} {m m' : VarMeta} {e : Event} {t : Fin MAX_THREAD}

theorem ownerAt_eq (he : evts[k]? = some e) (ht : t.val = e.tid) : ownerAt evts k = t := by
  simp only [ownerAt, he, ← ht]
  exact Fin.ofNat_val_eq_self t

theorem ClockInv.start : ClockInv evts V 0 .init where
  rep := represents_zero fun x c => by cases x <;> simp [VarMeta.clocks, VarMeta.init]
  pos := fun t h => by simp [VarMeta.init] at h

theorem ClockInv.congr (h : ClockInv evts V k m) (hm : VarMeta.SameClocks m m') :
    ClockInv evts V k m' where
  rep := hm.clocks_eq ▸ h.rep
  pos := hm.threadVc ▸ hm.isThreadVcInit ▸ h.pos

/-- Initialising a clock keeps the invariant: a thread may tick when it likes. -/
theorem ClockInv.initThreadVC (h : ClockInv evts V k m) (t : Fin MAX_THREAD) :
    ClockInv evts V k (m.initThreadVC t) := by
  constructor
  · apply h.rep.bump (fun x c hx => m.clocks_initThreadVC t hx)
    intro c
    rw [VarMeta.clocks_home, VarMeta.clocks_home]
    exact m.getTick_le_initThreadVC t c c
  · intro s hs
    unfold VarMeta.initThreadVC at hs ⊢
    split_ifs at hs ⊢ with hi
    · exact h.pos s hs
    by_cases hst : s = t
    · subst hst
      simp
    · simpa [hst] using h.pos s (by simpa [hst] using hs)

section Update

variable (hinv : ClockInv evts V k m) (he : evts[k]? = some e) (hi : m.isThreadVcInit t)
  (ht : t.val = e.tid)

include hinv he hi ht

theorem ClockInv.create {r : Fin MAX_THREAD} (hr : r.val = e.remoteTid) (hop : e.opTy = .create)
    (hV : V k = m.threadVc t) :
    Step (readsAt evts) (writesAt evts) (ownerAt evts) home (fun i => (V i).getTick) k m.clocks
      (m.passToThread t r).clocks := by
  have ho := ownerAt_eq he ht
  refine .release (y := home r) ?_ ?_ ?_ ?_ ?_ ?_ ?_ ?_ ?_
  · rw [readsAt_eq he, ho, Event.reads_of_else ht (by simp [hop]) (by simp [Event.isSyncAcqEvent, hop])]
  · rw [writesAt_eq he, ho, Event.writes_of_create ht hr hop]
  · rw [ho, VarMeta.clocks_home]
    exact hinv.pos t hi
  · intro c
    rw [ho, VarMeta.clocks_home, hV]
  · intro c hc
    have hrc : c ≠ r := fun h => hc (by rw [h])
    simp only [VarMeta.clocks_home, VarMeta.passToThread_threadVc, hV, if_true]
    split_ifs with hrt
    · rw [hrt] at hrc ⊢
      rw [VectorClock.incTick_of_ne _ hrc, max_self]
    · rfl
  · refine fun x c hx hxr => VarMeta.clocks_frame (fun s c hcs hsr => ?_) (fun _ _ => ?_) hx hxr
    · rw [VarMeta.passToThread_threadVc, if_neg (c := s = r) fun h => hsr (by rw [h])]
      split_ifs with hst
      · rw [← hst, VectorClock.incTick_of_ne _ hcs]
      · rfl
    · rfl
  · intro c
    rw [VarMeta.clocks_home, VarMeta.clocks_home, VarMeta.passToThread_threadVc]
    split_ifs with h₁ h₂
    · rw [h₁]
      exact VectorClock.getTick_le_incTick _ _ _
    · rw [h₂]
      exact le_max_left _ _
    · rfl
  · intro c hc
    obtain rfl := home_injective hc
    simp only [VarMeta.clocks_home, VarMeta.passToThread_threadVc, hV, if_true]
    split_ifs with h
    · exact VectorClock.getTick_le_incTick _ _ _
    · exact le_max_right _ _
  · intro c hc
    rw [ho] at hc
    obtain rfl := home_injective hc
    simp [VarMeta.passToThread_threadVc]

theorem ClockInv.join {r : Fin MAX_THREAD} (hr : r.val = e.remoteTid) (hop : e.opTy = .join)
    (hV : V k = (m.threadVc t).merge (m.threadVc r)) :
    Step (readsAt evts) (writesAt evts) (ownerAt evts) home (fun i => (V i).getTick) k m.clocks
      (m.takeFromThread t r).clocks := by
  have ho := ownerAt_eq he ht
  refine .acquire (y := home r) ?_ ?_ ?_ ?_ ?_ ?_ ?_ ?_ ?_
  · rw [readsAt_eq he, ho, Event.reads_of_join ht hr hop]
  · rw [writesAt_eq he, ho,
      Event.writes_of_else ht (by simp [hop]) (by simp [Event.isSyncRelEvent, hop])]
  · rw [ho, VarMeta.clocks_home]
    exact hinv.pos t hi
  · intro c
    rw [ho, VarMeta.clocks_home, VarMeta.clocks_home, hV, VectorClock.merge_getTick]
  · intro c hc
    rw [ho] at hc ⊢
    have htc : c ≠ t := fun h => hc (by rw [h])
    simp only [VarMeta.clocks_home, VarMeta.takeFromThread_threadVc, hV, if_true]
    split_ifs with htr
    · rw [← htr, VectorClock.incTick_of_ne _ htc, VectorClock.merge_self]
    · rfl
  · rw [ho]
    refine fun x c hx hxt => VarMeta.clocks_frame (fun s c hcs hst => ?_) (fun _ _ => ?_) hx hxt
    · rw [VarMeta.takeFromThread_threadVc, if_neg (c := s = t) fun h => hst (by rw [h])]
      split_ifs with hsr
      · rw [← hsr, VectorClock.incTick_of_ne _ hcs]
      · rfl
    · rfl
  · intro c
    rw [VarMeta.clocks_home, VarMeta.clocks_home, VarMeta.takeFromThread_threadVc]
    split_ifs with h₁ h₂
    · rw [h₁]
      exact VectorClock.getTick_le_incTick _ _ _
    · rw [h₂]
      exact le_max_left _ _
    · rfl
  · intro c hc
    rw [ho] at hc
    obtain rfl := home_injective hc
    simp only [VarMeta.clocks_home, VarMeta.takeFromThread_threadVc, hV, if_true]
    split_ifs with h
    · rw [← h, VectorClock.merge_self]
      exact VectorClock.getTick_le_incTick _ _ _
    · rfl
  · intro c hc _
    obtain rfl := home_injective hc
    simp [VarMeta.takeFromThread_threadVc]

theorem ClockInv.release (hop : e.isSyncRelEvent) (hV : V k = m.threadVc t) :
    Step (readsAt evts) (writesAt evts) (ownerAt evts) home (fun i => (V i).getTick) k m.clocks
      (m.passToVar t e.varAddr).clocks := by
  have ho := ownerAt_eq he ht
  have hty := Event.isSyncRelEvent_iff.mp hop
  have hj : e.opTy ≠ .join := by rcases hty with h | h | h <;> simp [h]
  have ha : ¬ e.isSyncAcqEvent := by rcases hty with h | h | h <;> simp [Event.isSyncAcqEvent, h]
  refine .release (y := .var e.varAddr) ?_ ?_ ?_ ?_ ?_ ?_ ?_ ?_ ?_
  · rw [readsAt_eq he, ho, Event.reads_of_else ht hj ha]
  · rw [writesAt_eq he, ho, Event.writes_of_release ht hop]
  · rw [ho, VarMeta.clocks_home]
    exact hinv.pos t hi
  · intro c
    rw [ho, VarMeta.clocks_home, hV]
  · intro c _
    simp [VarMeta.passToVar_syncVarVcTable, hV]
  · refine fun x c hx hxa => VarMeta.clocks_frame (fun s c hcs _ => ?_) (fun a haa => ?_) hx hxa
    · rw [VarMeta.passToVar_threadVc]
      split_ifs with hst
      · rw [← hst, VectorClock.incTick_of_ne _ hcs]
      · rfl
    · rw [VarMeta.passToVar_syncVarVcTable, if_neg fun h => haa (by rw [h])]
  · intro c
    rw [VarMeta.clocks_home, VarMeta.clocks_home, VarMeta.passToVar_threadVc]
    split_ifs with h
    · rw [h]
      exact VectorClock.getTick_le_incTick _ _ _
    · rfl
  · intro c hc
    cases hc
  · intro c hc
    rw [ho] at hc
    obtain rfl := home_injective hc
    simp [VarMeta.passToVar_threadVc]

theorem ClockInv.acquire (hop : e.isSyncAcqEvent)
    (hV : V k = (m.threadVc t).merge (m.syncVarVcTable e.varAddr)) :
    Step (readsAt evts) (writesAt evts) (ownerAt evts) home (fun i => (V i).getTick) k m.clocks
      (m.takeFromVar t e.varAddr).clocks := by
  have ho := ownerAt_eq he ht
  have hty := Event.isSyncAcqEvent_iff.mp hop
  have hc : e.opTy ≠ .create := by rcases hty with h | h | h <;> simp [h]
  have hr : ¬ e.isSyncRelEvent := by rcases hty with h | h | h <;> simp [Event.isSyncRelEvent, h]
  refine .acquire (y := .var e.varAddr) ?_ ?_ ?_ ?_ ?_ ?_ ?_ ?_ ?_
  · rw [readsAt_eq he, ho, Event.reads_of_acquire ht hop]
  · rw [writesAt_eq he, ho, Event.writes_of_else ht hc hr]
  · rw [ho, VarMeta.clocks_home]
    exact hinv.pos t hi
  · intro c
    rw [ho, VarMeta.clocks_home, VarMeta.clocks_var, hV, VectorClock.merge_getTick]
  · intro c _
    simp [ho, VarMeta.takeFromVar_threadVc, hV]
  · rw [ho]
    refine fun x c hx hxt => VarMeta.clocks_frame (fun s c _ hst => ?_) (fun _ _ => ?_) hx hxt
    · rw [VarMeta.takeFromVar_threadVc, if_neg fun h => hst (by rw [h])]
    · rfl
  · intro c
    rw [VarMeta.clocks_home, VarMeta.clocks_home, VarMeta.takeFromVar_threadVc]
    split_ifs with h
    · rw [h]
      exact le_max_left _ _
    · rfl
  · intro c hc
    rw [ho] at hc
    obtain rfl := home_injective hc
    simp [VarMeta.takeFromVar_threadVc, hV]
  · intro c hc
    cases hc

theorem ClockInv.internal (hop : e.opTy = .wait ∨ e.isAccessEvent) (hV : V k = m.threadVc t) :
    Step (readsAt evts) (writesAt evts) (ownerAt evts) home (fun i => (V i).getTick) k m.clocks
      m.clocks := by
  have ho := ownerAt_eq he ht
  have hty : e.opTy = .wait ∨ e.opTy = .ld ∨ e.opTy = .st := hop.imp_right Event.isAccessEvent_iff.mp
  refine .internal ?_ ?_ ?_ ?_
  · rw [readsAt_eq he, ho]
    refine Event.reads_of_else ht ?_ ?_ <;> rcases hty with h | h | h <;>
      simp [Event.isSyncAcqEvent, h]
  · rw [writesAt_eq he, ho]
    refine Event.writes_of_else ht ?_ ?_ <;> rcases hty with h | h | h <;>
      simp [Event.isSyncRelEvent, h]
  · rw [ho, VarMeta.clocks_home]
    exact hinv.pos t hi
  · intro c
    rw [ho, VarMeta.clocks_home, hV]

/-- **Every update is an event of the causal order**, from a state that may have initialised one
more clock. -/
theorem ClockInv.update (hV : V k = m.stamp e) (h : m.HbUpdate e t m') :
    ∃ m₁, ClockInv evts V k m₁ ∧ m₁.isThreadVcInit = m'.isThreadVcInit ∧
      Step (readsAt evts) (writesAt evts) (ownerAt evts) home (fun i => (V i).getTick) k m₁.clocks
        m'.clocks := by
  cases h with
  | @create r hop hr =>
    rw [VarMeta.stamp_of_else hi ht (by simp [hop]) (by simp [Event.isSyncAcqEvent, hop]),
      ← VarMeta.initThreadVC_threadVc hi r] at hV
    have hinv' := hinv.initThreadVC r
    exact ⟨_, hinv', rfl, hinv'.create he (VarMeta.initThreadVC_isThreadVcInit hi r) ht hr hop hV⟩
  | @join r hop hr =>
    rw [VarMeta.stamp_of_join hi ht hr hop] at hV
    have hinv' := hinv.initThreadVC r
    exact ⟨_, hinv', rfl, hinv'.join he (VarMeta.initThreadVC_isThreadVcInit hi r) ht hr hop hV⟩
  | release hop =>
    have hty := Event.isSyncRelEvent_iff.mp hop
    rw [VarMeta.stamp_of_else hi ht (by rcases hty with h | h | h <;> simp [h])
      (by rcases hty with h | h | h <;> simp [Event.isSyncAcqEvent, h])] at hV
    exact ⟨_, hinv, rfl, hinv.release he hi ht hop hV⟩
  | acquire hop =>
    rw [VarMeta.stamp_of_acquire hi ht hop] at hV
    exact ⟨_, hinv, rfl, hinv.acquire he hi ht hop hV⟩
  | internal hop =>
    have hty := hop.imp_right Event.isAccessEvent_iff.mp
    rw [VarMeta.stamp_of_else hi ht (by rcases hty with h | h | h <;> simp [h])
      (by rcases hty with h | h | h <;> simp [Event.isSyncAcqEvent, h])] at hV
    exact ⟨_, hinv, rfl, hinv.internal he hi ht hop hV⟩

end Update

theorem ClockInv.handleEvent {isSyncVar : Addr → Bool} {ra ra' : RaceAnalyze}
    (hinv : ClockInv evts V k ra.varMeta) (he : evts[k]? = some e) (hV : V k = ra.varMeta.stamp e)
    (h : ra.handleEvent isSyncVar ⟨k, e⟩ = .ok ra') :
    ClockInv evts V (k + 1) ra'.varMeta ∧
      ∃ m₁, ClockInv evts V k m₁ ∧
        Step (readsAt evts) (writesAt evts) (ownerAt evts) home (fun i => (V i).getTick) k m₁.clocks
          ra'.varMeta.clocks := by
  obtain ⟨t, ht, m, m', hm, hup, hm'⟩ := RaceAnalyze.handleEvent_clocks h
  have hinv' : ClockInv evts V k m := (hinv.initThreadVC t).congr hm
  have hi : m.isThreadVcInit t := by
    rw [← hm.isThreadVcInit]
    exact VarMeta.initThreadVC_isInit _ _
  have hV' : V k = m.stamp e := by rw [hV, ← hm.stamp_eq, VarMeta.stamp_initThreadVC _ ht]
  obtain ⟨m₁, hinv₁, hinit, hs⟩ := hinv'.update he hi ht hV' hup
  refine ⟨⟨?_, fun s hs' => ?_⟩, m₁, hinv₁, hm'.clocks_eq ▸ hs⟩
  · rw [← hm'.clocks_eq]
    exact hinv₁.rep.step hs home_injective
  · -- a thread's own tick never decreases
    rw [← hm'.isThreadVcInit, ← hinit] at hs'
    have hpos := hinv₁.pos s hs'
    have hown := hs.own s
    rw [VarMeta.clocks_home, VarMeta.clocks_home, hm'.threadVc] at hown
    exact hpos.trans_le hown

end Invariant

/-! ### Runs -/

section Runs

open RaceAnalyze

/-- The stamp of the event at place `k`. -/
def stampAt (isSyncVar : Addr → Bool) (evts : List Event) (k : ℕ) : VectorClock :=
  match stateAt isSyncVar evts k, evts[k]? with
  | .ok ra, some e => ra.varMeta.stamp e
  | _, _ => .zero

variable {isSyncVar : Addr → Bool} {evts : List Event} {ra ra' : RaceAnalyze} {k : ℕ} {e : Event}

theorem stampAt_eq (hra : stateAt isSyncVar evts k = .ok ra) (he : evts[k]? = some e) :
    stampAt isSyncVar evts k = ra.varMeta.stamp e := by
  simp only [stampAt, hra, he]

/-- The invariant holds in front of every event that the analysis reaches. -/
theorem clockInv_stateAt (hk : k ≤ evts.length) (hra : stateAt isSyncVar evts k = .ok ra) :
    ClockInv evts (stampAt isSyncVar evts) k ra.varMeta :=
  run_induction (P := fun k ra => ClockInv evts (stampAt isSyncVar evts) k ra.varMeta)
    ClockInv.start
    (fun _ _ _ _ he hra₁ hinv hstep => (hinv.handleEvent he (stampAt_eq hra₁ he) hstep).1) hk hra

/-- Every event of a trace that is accepted is an event of the causal order. -/
theorem clockStep_stateAt (h : analyzeLoop isSyncVar evts 0 .init = .ok ra) (he : evts[k]? = some e) :
    ∃ m C', ClockInv evts (stampAt isSyncVar evts) k m ∧
      Step (readsAt evts) (writesAt evts) (ownerAt evts) home
        (fun i => (stampAt isSyncVar evts i).getTick) k m.clocks C' := by
  obtain ⟨ra₁, ra₂, hra₁, hstep, -⟩ := stateAt_step h he
  have hinv := clockInv_stateAt (List.getElem?_eq_some_iff.mp he).1.le hra₁
  obtain ⟨-, m, hm, hs⟩ := hinv.handleEvent he (stampAt_eq hra₁ he) hstep
  exact ⟨m, _, hm, hs⟩

/-- The thread of an event that is accepted has a clock. -/
theorem tid_of_accepted (h : analyzeLoop isSyncVar evts 0 .init = .ok ra) (he : evts[k]? = some e) :
    ∃ t : Fin MAX_THREAD, t.val = e.tid := by
  obtain ⟨ra₁, ra₂, -, hstep, -⟩ := stateAt_step h he
  obtain ⟨t, ht, -⟩ := handleEvent_clocks hstep
  exact ⟨t, ht⟩

/-- **Stamps are the order.** -/
theorem stamp_le_iff (h : analyzeLoop isSyncVar evts 0 .init = .ok ra) {i j : ℕ} (hij : i < j)
    (he : evts[j]? = some e) :
    (stampAt isSyncVar evts i).le (stampAt isSyncVar evts j) ↔ HappensBefore evts i j := by
  obtain ⟨m, C', hinv, hs⟩ := clockStep_stateAt h he
  rw [VectorClock.le_iff]
  exact hinv.rep.before_iff hs hij

/-- The stamp of a later event of another thread is never below. -/
theorem not_stamp_le (h : analyzeLoop isSyncVar evts 0 .init = .ok ra) {i j : ℕ} (hij : i < j)
    {f : Event} (he : evts[i]? = some e) (hf : evts[j]? = some f) (htid : e.tid ≠ f.tid) :
    ¬ (stampAt isSyncVar evts j).le (stampAt isSyncVar evts i) := by
  obtain ⟨m, C', hinv, hs⟩ := clockStep_stateAt h hf
  obtain ⟨s, hs'⟩ := tid_of_accepted h he
  obtain ⟨t, ht'⟩ := tid_of_accepted h hf
  rw [VectorClock.le_iff]
  apply hinv.rep.not_le hs hij
  rw [ownerAt_eq he hs', ownerAt_eq hf ht']
  rintro rfl
  exact htid (hs'.symm.trans ht')

/-- **Concurrent stamps are unordered events.** -/
theorem stamp_concurrent_iff (h : analyzeLoop isSyncVar evts 0 .init = .ok ra) {i j : ℕ}
    (hij : i < j) {f : Event} (he : evts[i]? = some e) (hf : evts[j]? = some f) :
    (stampAt isSyncVar evts i).isConcurrentWith (stampAt isSyncVar evts j) ↔
      ¬ HappensBefore evts i j := by
  rw [VectorClock.isConcurrentWith_iff, stamp_le_iff h hij hf, and_iff_left_iff_imp]
  intro hhb
  exact not_stamp_le h hij he hf fun htid => hhb (happensBefore_of_tid_eq hij he hf htid)

end Runs

end Schnauzer
