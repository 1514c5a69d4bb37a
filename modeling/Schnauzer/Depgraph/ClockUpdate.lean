import Schnauzer.Depgraph.HappensBefore
import Schnauzer.Depgraph.RaceAnalyze

/-!
# What events do to the clocks

The clocks of `VarMeta` seen as the clocks of the nodes of happens-before (`clocks`), and
the handlers of `updateHB` seen as five kinds of updates of them (`HbUpdate`). An event is
stamped with its thread's clock as it stands after the event has taken over what it reads
(`stamp`).
-/

namespace Schnauzer

/-- The node of a thread. -/
def home (t : Fin MAX_THREAD) : Node := .thr t.val

theorem home_injective : Function.Injective home := fun s t h => by
  simpa [home, Fin.ext_iff] using h

/-- A node is a thread with a clock, a variable, or a thread id out of range. -/
theorem Node.cases_range (x : Node) :
    (∃ s, x = home s) ∨ (∃ a, x = .var a) ∨ ∃ s, ¬ s < MAX_THREAD ∧ x = .thr s := by
  cases x with
  | thr s =>
    by_cases hs : s < MAX_THREAD
    · exact Or.inl ⟨⟨s, hs⟩, rfl⟩
    · exact Or.inr (Or.inr ⟨s, hs, rfl⟩)
  | var a => exact Or.inr (Or.inl ⟨a, rfl⟩)

namespace VarMeta

/-- The clocks of all nodes; thread ids out of range have none. -/
def clocks (m : VarMeta) : Node → Fin MAX_THREAD → ℕ
  | .thr t, c => if h : t < MAX_THREAD then (m.threadVc ⟨t, h⟩).getTick c else 0
  | .var a, c => (m.syncVarVcTable a).getTick c

@[simp] theorem clocks_home (m : VarMeta) (t c : Fin MAX_THREAD) :
    m.clocks (home t) c = (m.threadVc t).getTick c := by
  simp [clocks, home]

@[simp] theorem clocks_var (m : VarMeta) (a : Addr) (c : Fin MAX_THREAD) :
    m.clocks (.var a) c = (m.syncVarVcTable a).getTick c := rfl

theorem clocks_out_of_range (m : VarMeta) {s : ℕ} (hs : ¬ s < MAX_THREAD) (c : Fin MAX_THREAD) :
    m.clocks (.thr s) c = 0 := by
  simp [clocks, hs]

/-- Two states whose clocks differ only at node `y`, and in the threads' own ticks. -/
theorem clocks_frame {m m' : VarMeta} {y : Node}
    (ht : ∀ s c, c ≠ s → home s ≠ y → (m'.threadVc s).getTick c = (m.threadVc s).getTick c)
    (ha : ∀ a, .var a ≠ y → m'.syncVarVcTable a = m.syncVarVcTable a) {x : Node} {c : Fin MAX_THREAD}
    (hx : x ≠ home c) (hy : x ≠ y) : m'.clocks x c = m.clocks x c := by
  rcases x.cases_range with ⟨s, rfl⟩ | ⟨a, rfl⟩ | ⟨s, hs, rfl⟩
  · rw [clocks_home, clocks_home, ht s c (fun h => hx (by rw [h])) hy]
  · rw [clocks_var, clocks_var, ha a hy]
  · rw [clocks_out_of_range _ hs, clocks_out_of_range _ hs]

/-- Two states with the same clocks. -/
structure SameClocks (m m' : VarMeta) : Prop where
  threadVc : m.threadVc = m'.threadVc
  isThreadVcInit : m.isThreadVcInit = m'.isThreadVcInit
  syncVarVcTable : m.syncVarVcTable = m'.syncVarVcTable

theorem SameClocks.clocks_eq {m m' : VarMeta} (h : SameClocks m m') : m.clocks = m'.clocks := by
  funext x c
  cases x <;> simp [clocks, h.threadVc, h.syncVarVcTable]

/-! ### What the handlers do -/

theorem getThreadVC_eq_ok {m m' : VarMeta} {tid : ℕ} {t : Fin MAX_THREAD} :
    m.getThreadVC tid = .ok (t, m') ↔ t.val = tid ∧ m' = m.initThreadVC t := by
  unfold getThreadVC
  split_ifs with h
  · simp only [Except.ok.injEq, Prod.mk.injEq]
    constructor
    · rintro ⟨rfl, rfl⟩
      exact ⟨rfl, rfl⟩
    · rintro ⟨rfl, rfl⟩
      exact ⟨rfl, rfl⟩
  · simp only [false_iff, not_and]
    rintro rfl
    exact absurd t.isLt h

@[simp] theorem initThreadVC_isInit (m : VarMeta) (t : Fin MAX_THREAD) :
    (m.initThreadVC t).isThreadVcInit t = true := by
  unfold initThreadVC
  split_ifs with h
  · exact h
  · simp

@[simp] theorem initThreadVC_idem (m : VarMeta) (t : Fin MAX_THREAD) :
    (m.initThreadVC t).initThreadVC t = m.initThreadVC t := by
  rw [initThreadVC, if_pos (initThreadVC_isInit m t)]

@[simp] theorem initThreadVC_syncVarVcTable (m : VarMeta) (t : Fin MAX_THREAD) :
    (m.initThreadVC t).syncVarVcTable = m.syncVarVcTable := by
  unfold initThreadVC
  split_ifs <;> rfl

theorem initThreadVC_of_ne (m : VarMeta) {s t : Fin MAX_THREAD} (h : s ≠ t) :
    (m.initThreadVC t).threadVc s = m.threadVc s := by
  unfold initThreadVC
  split_ifs
  · rfl
  · simp [h]

/-- A first tick is a tick of the thread's own. -/
theorem clocks_initThreadVC (m : VarMeta) (t : Fin MAX_THREAD) {x : Node} {c : Fin MAX_THREAD}
    (hx : x ≠ home c) : (m.initThreadVC t).clocks x c = m.clocks x c := by
  unfold initThreadVC
  split_ifs
  · rfl
  · rcases x.cases_range with ⟨s, rfl⟩ | ⟨a, rfl⟩ | ⟨s, hs, rfl⟩
    · by_cases hst : s = t
      · subst hst
        have hcs : c ≠ s := fun h => hx (by rw [h])
        simp [VectorClock.incTick_of_ne _ hcs]
      · simp [hst]
    · rfl
    · rw [clocks_out_of_range _ hs, clocks_out_of_range _ hs]

theorem getTick_le_initThreadVC (m : VarMeta) (t s c : Fin MAX_THREAD) :
    (m.threadVc s).getTick c ≤ ((m.initThreadVC t).threadVc s).getTick c := by
  unfold initThreadVC
  split_ifs
  · exact le_rfl
  · by_cases hst : s = t
    · subst hst
      simpa using VectorClock.getTick_le_incTick _ _ _
    · simp [hst]

theorem SameClocks.initThreadVC {m m' : VarMeta} (h : SameClocks m m') (t : Fin MAX_THREAD) :
    SameClocks (m.initThreadVC t) (m'.initThreadVC t) := by
  obtain ⟨h₁, h₂, h₃⟩ := h
  unfold VarMeta.initThreadVC
  rw [h₂]
  split_ifs
  · exact ⟨h₁, h₂, h₃⟩
  · constructor <;> simp [h₁, h₃]

/-- A `CREATE` by `t` of `r`. -/
def passToThread (m : VarMeta) (t r : Fin MAX_THREAD) : VarMeta :=
  let m := m.setThreadVC r ((m.threadVc r).merge (m.threadVc t))
  m.setThreadVC t ((m.threadVc t).incTick t)

/-- A `JOIN` by `t` of `r`. -/
def takeFromThread (m : VarMeta) (t r : Fin MAX_THREAD) : VarMeta :=
  let m := m.setThreadVC t ((m.threadVc t).merge (m.threadVc r))
  m.setThreadVC r ((m.threadVc r).incTick r)

/-- A release by `t` on `a`. -/
def passToVar (m : VarMeta) (t : Fin MAX_THREAD) (a : Addr) : VarMeta :=
  let m := m.setSyncVarVC a ((m.syncVarVcTable a).merge (m.threadVc t))
  m.setThreadVC t ((m.threadVc t).incTick t)

/-- An acquire by `t` on `a`. -/
def takeFromVar (m : VarMeta) (t : Fin MAX_THREAD) (a : Addr) : VarMeta :=
  m.setThreadVC t ((m.threadVc t).merge (m.syncVarVcTable a))

theorem passToThread_threadVc (m : VarMeta) (t r s : Fin MAX_THREAD) :
    (m.passToThread t r).threadVc s =
      if s = t then (m.threadVc t).incTick t
      else if s = r then (m.threadVc r).merge (m.threadVc t) else m.threadVc s := by
  unfold passToThread setThreadVC
  by_cases hst : s = t
  · by_cases htr : t = r
    · simp [hst, htr, VectorClock.merge_self]
    · simp [hst, htr]
  · by_cases hsr : s = r
    · subst hsr
      simp [hst]
    · simp [hst, hsr]

theorem takeFromThread_threadVc (m : VarMeta) (t r s : Fin MAX_THREAD) :
    (m.takeFromThread t r).threadVc s =
      if s = r then (m.threadVc r).incTick r
      else if s = t then (m.threadVc t).merge (m.threadVc r) else m.threadVc s := by
  unfold takeFromThread setThreadVC
  by_cases hsr : s = r
  · by_cases htr : r = t
    · simp [hsr, htr, VectorClock.merge_self]
    · simp [hsr, htr]
  · by_cases hst : s = t
    · subst hst
      simp [hsr]
    · simp [hst, hsr]

theorem passToVar_threadVc (m : VarMeta) (t s : Fin MAX_THREAD) (a : Addr) :
    (m.passToVar t a).threadVc s = if s = t then (m.threadVc t).incTick t else m.threadVc s := by
  unfold passToVar setThreadVC setSyncVarVC
  by_cases hst : s = t <;> simp [hst]

theorem passToVar_syncVarVcTable (m : VarMeta) (t : Fin MAX_THREAD) (a b : Addr) :
    (m.passToVar t a).syncVarVcTable b =
      if b = a then (m.syncVarVcTable a).merge (m.threadVc t) else m.syncVarVcTable b := by
  unfold passToVar setThreadVC setSyncVarVC
  by_cases hba : b = a <;> simp [hba]

theorem takeFromVar_threadVc (m : VarMeta) (t s : Fin MAX_THREAD) (a : Addr) :
    (m.takeFromVar t a).threadVc s =
      if s = t then (m.threadVc t).merge (m.syncVarVcTable a) else m.threadVc s := by
  unfold takeFromVar setThreadVC
  by_cases hst : s = t <;> simp [hst]

/-- What an event of thread `t` does to the clocks of `m`, once the clocks it needs are
initialised. -/
inductive HbUpdate (m : VarMeta) (e : Event) (t : Fin MAX_THREAD) : VarMeta → Prop where
  /-- `OP_CREATE`. -/
  | create {r : Fin MAX_THREAD} (hop : e.opTy = .create) (hr : r.val = e.remoteTid) :
      HbUpdate m e t ((m.initThreadVC r).passToThread t r)
  /-- `OP_JOIN`. -/
  | join {r : Fin MAX_THREAD} (hop : e.opTy = .join) (hr : r.val = e.remoteTid) :
      HbUpdate m e t ((m.initThreadVC r).takeFromThread t r)
  /-- `OP_UNLOCK`, `OP_SIGNAL`, `OP_BROADCAST`. -/
  | release (hop : e.isSyncRelEvent) : HbUpdate m e t (m.passToVar t e.varAddr)
  /-- `OP_LOCK`, `OP_TRYLOCK`, `OP_AWAKE`. -/
  | acquire (hop : e.isSyncAcqEvent) : HbUpdate m e t (m.takeFromVar t e.varAddr)
  /-- `OP_WAIT`, and the accesses. -/
  | internal (hop : e.opTy = .wait ∨ e.isAccessEvent) : HbUpdate m e t m

theorem handleThreadOpEvent_update {m m' : VarMeta} {e : Event} (he : e.isThreadOpEvent)
    (h : m.handleThreadOpEvent e = .ok m') :
    ∃ t : Fin MAX_THREAD, t.val = e.tid ∧ HbUpdate (m.initThreadVC t) e t m' := by
  unfold handleThreadOpEvent at h
  obtain ⟨⟨t, m₁⟩, ht, h⟩ := bind_eq_ok.mp h
  obtain ⟨htid, rfl⟩ := getThreadVC_eq_ok.mp ht
  refine ⟨t, htid, ?_⟩
  rcases Event.isThreadOpEvent_iff.mp he with hop | hop <;>
    simp only [hop, reduceCtorEq, if_true, if_false] at h <;>
    obtain ⟨⟨r, m₂⟩, hr, h⟩ := bind_eq_ok.mp h <;>
    obtain ⟨hrem, rfl⟩ := getThreadVC_eq_ok.mp hr <;>
    obtain rfl := pure_eq_ok.mp h
  · exact .create hop hrem
  · exact .join hop hrem

theorem handleSyncOpEvent_update {m m' : VarMeta} {e : Event} (he : e.isSyncOpEvent)
    (h : m.handleSyncOpEvent e = .ok m') :
    ∃ t : Fin MAX_THREAD, t.val = e.tid ∧ HbUpdate (m.initThreadVC t) e t m' := by
  unfold handleSyncOpEvent at h
  obtain ⟨⟨t, m₁⟩, ht, h⟩ := bind_eq_ok.mp h
  obtain ⟨htid, rfl⟩ := getThreadVC_eq_ok.mp ht
  refine ⟨t, htid, ?_⟩
  rcases Event.isSyncOpEvent_iff.mp he with ha | hr | hw
  · rcases Event.isSyncAcqEvent_iff.mp ha with hop | hop | hop <;>
      simp only [hop, reduceCtorEq, or_true, true_or, or_self, if_true, if_false] at h <;>
      obtain rfl := pure_eq_ok.mp h <;> exact .acquire ha
  · rcases Event.isSyncRelEvent_iff.mp hr with hop | hop | hop <;>
      simp only [hop, reduceCtorEq, or_self, if_true, if_false] at h <;>
      obtain rfl := pure_eq_ok.mp h <;> exact .release hr
  · simp only [hw, reduceCtorEq, or_self, if_true, if_false] at h
    obtain rfl := pure_eq_ok.mp h
    exact .internal (Or.inl hw)

/-- What `updateHB` does. -/
theorem updateHB_update {m m' : VarMeta} {e : Event} (h : m.updateHB e = .ok m') :
    ∃ t : Fin MAX_THREAD, t.val = e.tid ∧ HbUpdate (m.initThreadVC t) e t m' := by
  unfold updateHB at h
  split_ifs at h with hthr hsync
  · exact handleThreadOpEvent_update hthr h
  · exact handleSyncOpEvent_update hsync h

/-- The clock an event is stamped with: its thread's, after it has taken over what the
event reads. -/
def stamp (m : VarMeta) (e : Event) : VectorClock :=
  let t := Fin.ofNat MAX_THREAD e.tid
  let m := m.initThreadVC t
  if e.opTy = .join then
    let r := Fin.ofNat MAX_THREAD e.remoteTid
    let m := m.initThreadVC r
    (m.threadVc t).merge (m.threadVc r)
  else if e.isSyncAcqEvent then (m.threadVc t).merge (m.syncVarVcTable e.varAddr)
  else m.threadVc t

theorem SameClocks.stamp_eq {m m' : VarMeta} (h : SameClocks m m') (e : Event) :
    m.stamp e = m'.stamp e := by
  have h₁ := h.initThreadVC (Fin.ofNat MAX_THREAD e.tid)
  have h₂ := h₁.initThreadVC (Fin.ofNat MAX_THREAD e.remoteTid)
  simp only [stamp, h₁.threadVc, h₁.syncVarVcTable, h₂.threadVc]

@[simp] theorem stamp_initThreadVC (m : VarMeta) {e : Event} {t : Fin MAX_THREAD}
    (ht : t.val = e.tid) : (m.initThreadVC t).stamp e = m.stamp e := by
  have : Fin.ofNat MAX_THREAD e.tid = t := by
    rw [← ht]
    exact Fin.ofNat_val_eq_self t
  simp only [stamp, this, initThreadVC_idem]

theorem initThreadVC_of_isInit {m : VarMeta} {t : Fin MAX_THREAD} (hi : m.isThreadVcInit t) :
    m.initThreadVC t = m := by
  rw [initThreadVC, if_pos hi]

/-- Initialising another clock leaves a clock in use alone. -/
theorem initThreadVC_threadVc {m : VarMeta} {t : Fin MAX_THREAD} (hi : m.isThreadVcInit t)
    (r : Fin MAX_THREAD) : (m.initThreadVC r).threadVc t = m.threadVc t := by
  by_cases htr : t = r
  · rw [← htr, initThreadVC_of_isInit hi]
  · exact initThreadVC_of_ne m htr

theorem initThreadVC_isThreadVcInit {m : VarMeta} {t : Fin MAX_THREAD} (hi : m.isThreadVcInit t)
    (r : Fin MAX_THREAD) : (m.initThreadVC r).isThreadVcInit t := by
  by_cases htr : t = r
  · rw [htr, initThreadVC_isInit]
  · unfold initThreadVC
    split_ifs
    · exact hi
    · simp [htr, hi]

section Stamp

variable {m : VarMeta} {e : Event} {t r : Fin MAX_THREAD} (hi : m.isThreadVcInit t)
  (ht : t.val = e.tid)

include hi ht

theorem stamp_of_join (hr : r.val = e.remoteTid) (hop : e.opTy = .join) :
    m.stamp e = ((m.initThreadVC r).threadVc t).merge ((m.initThreadVC r).threadVc r) := by
  simp only [stamp, hop, if_true, ← ht, ← hr, Fin.ofNat_val_eq_self, initThreadVC_of_isInit hi]

theorem stamp_of_acquire (hop : e.isSyncAcqEvent) :
    m.stamp e = (m.threadVc t).merge (m.syncVarVcTable e.varAddr) := by
  have hj : e.opTy ≠ .join := by
    rintro h
    simp [Event.isSyncAcqEvent, h] at hop
  simp only [stamp, hop, hj, if_true, if_false, ← ht, Fin.ofNat_val_eq_self, initThreadVC_of_isInit hi]

theorem stamp_of_else (hj : e.opTy ≠ .join) (ha : ¬ e.isSyncAcqEvent) : m.stamp e = m.threadVc t := by
  simp only [stamp, hj, ha, if_false, ← ht, Fin.ofNat_val_eq_self, initThreadVC_of_isInit hi]
  rfl

end Stamp

/-! ### What an event does -/

theorem SameClocks.refl (m : VarMeta) : SameClocks m m := ⟨rfl, rfl, rfl⟩

theorem SameClocks.trans {m₁ m₂ m₃ : VarMeta} (h : SameClocks m₁ m₂) (h' : SameClocks m₂ m₃) :
    SameClocks m₁ m₃ :=
  ⟨h.threadVc.trans h'.threadVc, h.isThreadVcInit.trans h'.isThreadVcInit,
    h.syncVarVcTable.trans h'.syncVarVcTable⟩

theorem SameClocks.symm {m₁ m₂ : VarMeta} (h : SameClocks m₁ m₂) : SameClocks m₂ m₁ :=
  ⟨h.threadVc.symm, h.isThreadVcInit.symm, h.syncVarVcTable.symm⟩

theorem getRaceEvents_meta {m m' : VarMeta} {e : Event} {ret : List EventPtr}
    (h : m.getRaceEvents e = .ok (ret, m')) :
    ∃ t : Fin MAX_THREAD, t.val = e.tid ∧ m' = m.initThreadVC t := by
  unfold getRaceEvents at h
  obtain ⟨⟨t, m₁⟩, ht, h⟩ := bind_eq_ok.mp h
  obtain ⟨htid, rfl⟩ := getThreadVC_eq_ok.mp ht
  refine ⟨t, htid, ?_⟩
  split_ifs at h
  · obtain ⟨_, -, h⟩ := bind_eq_ok.mp h
    simp only [pure_eq_ok, Prod.mk.injEq] at h
    exact h.2.symm
  · obtain ⟨_, -, h⟩ := bind_eq_ok.mp h
    obtain ⟨_, -, h⟩ := bind_eq_ok.mp h
    simp only [pure_eq_ok, Prod.mk.injEq] at h
    exact h.2.symm

/-- The clocks after `putRead`, `putWrite` or `putSyncRel`. -/
theorem put_clocks {m m' : VarMeta} {p : EventPtr}
    (h : m.putRead p = .ok m' ∨ m.putWrite p = .ok m' ∨ m.putSyncRel p = .ok m') :
    ∃ t : Fin MAX_THREAD, t.val = p.evt.tid ∧ SameClocks (m.initThreadVC t) m' := by
  rcases h with h | h | h
  · obtain ⟨⟨t, m₁⟩, ht, h⟩ := bind_eq_ok.mp h
    obtain ⟨htid, rfl⟩ := getThreadVC_eq_ok.mp ht
    obtain rfl := pure_eq_ok.mp h
    exact ⟨t, htid, rfl, rfl, rfl⟩
  · obtain ⟨⟨t, m₁⟩, ht, h⟩ := bind_eq_ok.mp h
    obtain ⟨htid, rfl⟩ := getThreadVC_eq_ok.mp ht
    obtain rfl := pure_eq_ok.mp h
    exact ⟨t, htid, rfl, rfl, rfl⟩
  · unfold putSyncRel at h
    split_ifs at h
    obtain ⟨⟨t, m₁⟩, ht, h⟩ := bind_eq_ok.mp h
    obtain ⟨htid, rfl⟩ := getThreadVC_eq_ok.mp ht
    obtain rfl := pure_eq_ok.mp h
    exact ⟨t, htid, rfl, rfl, rfl⟩

end VarMeta

namespace RaceAnalyze

open VarMeta

variable {isSyncVar : Addr → Bool} {ra ra' : RaceAnalyze} {p : EventPtr}

theorem addRaces_varMeta {rs : List EventPtr} (h : ra.addRaces p rs = .ok ra') :
    ra'.varMeta = ra.varMeta := by
  induction rs generalizing ra with
  | nil =>
    cases h
    rfl
  | cons r rs ih =>
    obtain ⟨ra₁, h₁, h⟩ := bind_eq_ok.mp h
    unfold addRace at h₁
    split_ifs at h₁
    cases h₁
    have hm := ih h
    exact hm

theorem addSyncHbs_varMeta {rs : List EventPtr} (h : ra.addSyncHbs p rs = .ok ra') :
    ra'.varMeta = ra.varMeta := by
  induction rs generalizing ra with
  | nil =>
    cases h
    rfl
  | cons r rs ih =>
    obtain ⟨ra₁, h₁, h⟩ := bind_eq_ok.mp h
    unfold addSyncHb at h₁
    split_ifs at h₁
    cases h₁
    have hm := ih h
    exact hm

theorem handleVarAccessEvent_clocks (h : ra.handleVarAccessEvent p = .ok ra') :
    ∃ t : Fin MAX_THREAD, t.val = p.evt.tid ∧ SameClocks (ra.varMeta.initThreadVC t) ra'.varMeta := by
  obtain ⟨⟨ret, m⟩, hret, h⟩ := bind_eq_ok.mp h
  obtain ⟨t, htid, rfl⟩ := getRaceEvents_meta hret
  obtain ⟨ra₁, hra₁, h⟩ := bind_eq_ok.mp h
  have hm := addRaces_varMeta hra₁
  refine ⟨t, htid, ?_⟩
  -- whatever is put into a set, the clock of `t` is in use already
  have hput : ∀ m', ra₁.varMeta.putRead p = .ok m' ∨ ra₁.varMeta.putWrite p = .ok m' ∨
      ra₁.varMeta.putSyncRel p = .ok m' → SameClocks (ra.varMeta.initThreadVC t) m' := by
    intro m' hm'
    obtain ⟨t', ht', hsame⟩ := put_clocks hm'
    obtain rfl : t' = t := Fin.ext (ht'.trans htid.symm)
    rwa [hm, initThreadVC_idem] at hsame
  split_ifs at h
  · obtain ⟨m', hm', h⟩ := bind_eq_ok.mp h
    obtain rfl := pure_eq_ok.mp h
    exact hput m' (Or.inl hm')
  · obtain ⟨m', hm', h⟩ := bind_eq_ok.mp h
    obtain rfl := pure_eq_ok.mp h
    exact hput m' (Or.inr (Or.inl hm'))
  · obtain rfl := pure_eq_ok.mp h
    rw [hm]
    exact .refl _

/-- The first half of `handleSyncOpEvent` initialises a clock at most. -/
theorem handleSyncRel_clocks (h : ra.handleSyncRel p = .ok ra') :
    SameClocks ra.varMeta ra'.varMeta ∨
      ∃ t : Fin MAX_THREAD, t.val = p.evt.tid ∧ SameClocks (ra.varMeta.initThreadVC t) ra'.varMeta := by
  unfold handleSyncRel at h
  split_ifs at h
  · obtain ⟨_, -, h⟩ := bind_eq_ok.mp h
    obtain ⟨ra₁, hra₁, h⟩ := bind_eq_ok.mp h
    obtain rfl := pure_eq_ok.mp h
    left
    rw [← addSyncHbs_varMeta hra₁]
    exact ⟨rfl, rfl, rfl⟩
  · obtain ⟨m', hm', h⟩ := bind_eq_ok.mp h
    obtain rfl := pure_eq_ok.mp h
    exact Or.inr (put_clocks (Or.inr (Or.inr hm')))
  · obtain rfl := pure_eq_ok.mp h
    exact Or.inl (.refl _)

theorem handleSyncOpEvent_clocks (h : ra.handleSyncOpEvent p = .ok ra') :
    ∃ t : Fin MAX_THREAD, t.val = p.evt.tid ∧
      ∃ m, SameClocks (ra.varMeta.initThreadVC t) m ∧ m.HbUpdate p.evt t ra'.varMeta := by
  obtain ⟨ra₁, hra₁, h⟩ := bind_eq_ok.mp h
  obtain ⟨m', hm', h⟩ := bind_eq_ok.mp h
  obtain rfl := pure_eq_ok.mp h
  obtain ⟨t, htid, hup⟩ := updateHB_update hm'
  refine ⟨t, htid, _, ?_, hup⟩
  rcases handleSyncRel_clocks hra₁ with hsame | ⟨t', ht', hsame⟩
  · exact hsame.initThreadVC t
  · obtain rfl : t' = t := Fin.ext (ht'.trans htid.symm)
    simpa using hsame.initThreadVC t'

/-- The events that the analysis accepts. -/
theorem handleEvent_cases (h : ra.handleEvent isSyncVar p = .ok ra') :
    (p.evt.isThreadOpEvent ∨ p.evt.isSyncOpEvent) ∧ ra.handleSyncOpEvent p = .ok ra' ∨
      p.evt.isAccessEvent ∧ p.evt.varLen = 1 ∧ ¬ isSyncVar p.evt.varAddr ∧
        ra.handleVarAccessEvent p = .ok ra' := by
  unfold handleEvent at h
  split_ifs at h with hsync
  · exact Or.inl ⟨by simpa using hsync, h⟩
  · obtain ⟨b, hb, h⟩ := bind_eq_ok.mp h
    split_ifs at h with hb'
    simp only [Bool.and_eq_true, Bool.not_eq_true'] at hb'
    obtain ⟨hacc, hlen⟩ := Event.isVarAccessEvent_eq_true.mp (hb'.1 ▸ hb)
    exact Or.inr ⟨hacc, hlen, by simp [hb'.2], h⟩

/-- **What an event does to the clocks**: it initialises its thread's clock and updates. -/
theorem handleEvent_clocks (h : ra.handleEvent isSyncVar p = .ok ra') :
    ∃ t : Fin MAX_THREAD, t.val = p.evt.tid ∧
      ∃ m m', SameClocks (ra.varMeta.initThreadVC t) m ∧ m.HbUpdate p.evt t m' ∧
        SameClocks m' ra'.varMeta := by
  rcases handleEvent_cases h with ⟨-, h⟩ | ⟨hacc, -, -, h⟩
  · obtain ⟨t, htid, m, hm, hup⟩ := handleSyncOpEvent_clocks h
    exact ⟨t, htid, m, _, hm, hup, .refl _⟩
  · obtain ⟨t, htid, hm⟩ := handleVarAccessEvent_clocks h
    exact ⟨t, htid, _, _, .refl _, .internal (Or.inr hacc), hm⟩

end RaceAnalyze

end Schnauzer
