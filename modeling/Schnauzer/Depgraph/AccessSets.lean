import Schnauzer.Depgraph.Clocks
import Mathlib.Data.List.TakeWhile

/-!
# The access sets of the analysis

The read set of an address holds the loads since the last store to it, the write set
holds that store, and every operation in them carries its event's stamp (`SetRep`). Since
the loops of `getRaceEvents` go over these sets, the pairs found so far are the pairs of
conflicting accesses with no store in between and concurrent stamps (`AccessInv`).

Operations are numbered by one counter, so that the next one is never taken for one that
is in a set already (`mem_emplace`).

## What is proved

* `AccessInv.handleEvent` — an event keeps the sets and the pairs as described.
* `analyzeLoop_ok_iff` — a trace is refused only for what its events are, never for what is stored:
  the `assert`s on stored operations cannot fail.
-/

namespace Schnauzer

/-! ### Sets of operations -/

/-- A new operation goes to the end. -/
theorem emplace_eq {ops : List Operation} {op : Operation} (h : ∀ o ∈ ops, o.id < op.id) :
    emplace ops op = ops ++ [op] := by
  have hany : ¬ ops.any fun o => o.id = op.id := by
    simp only [List.any_eq_true, decide_eq_true_eq, not_exists, not_and]
    exact fun o ho => (h o ho).ne
  rw [emplace, if_neg hany, List.takeWhile_eq_self_iff.mpr fun o ho => decide_eq_true (h o ho),
    List.dropWhile_eq_nil_iff.mpr fun o ho => decide_eq_true (h o ho)]

theorem mem_emplace {ops : List Operation} {op o : Operation} (h : ∀ o ∈ ops, o.id < op.id) :
    o ∈ emplace ops op ↔ o ∈ ops ∨ o = op := by
  simp [emplace_eq h]

namespace VarMeta

/-- The loop over one set collects the concurrent operations, if all are of the right type. -/
theorem raceLoop_spec {ty : OpTy} (vc : VectorClock) {ops : List Operation} (ret : List EventPtr)
    (h : ∀ op ∈ ops, op.getEvent.evt.opTy = ty) :
    ∃ ret', raceLoop ty vc ops ret = .ok ret' ∧
      ∀ q, q ∈ ret' ↔ q ∈ ret ∨ ∃ op ∈ ops, op.getVC.isConcurrentWith vc ∧ op.getEvent = q := by
  induction ops generalizing ret with
  | nil => exact ⟨ret, rfl, fun q => by simp⟩
  | cons op ops ih =>
    obtain ⟨ret', hret', hmem⟩ := ih
      (if op.getVC.isConcurrentWith vc then ret.insert op.getEvent else ret)
      fun o ho => h o (List.mem_cons_of_mem _ ho)
    refine ⟨ret', ?_, fun q => ?_⟩
    · rw [raceLoop, if_neg (not_not.mpr (h op List.mem_cons_self)), hret']
    · rw [hmem q]
      simp only [List.mem_cons, exists_eq_or_imp]
      split_ifs with hc
      · simp only [List.mem_insert_iff, hc, true_and]
        constructor
        · rintro ((rfl | h) | h)
          · exact Or.inr (Or.inl rfl)
          · exact Or.inl h
          · exact Or.inr (Or.inr h)
        · rintro (h | rfl | h)
          · exact Or.inl (Or.inr h)
          · exact Or.inl (Or.inl rfl)
          · exact Or.inr h
      · simp [hc]

@[simp] theorem initThreadVC_varRsetTable (m : VarMeta) (t : Fin MAX_THREAD) :
    (m.initThreadVC t).varRsetTable = m.varRsetTable := by
  unfold initThreadVC
  split_ifs <;> rfl

@[simp] theorem initThreadVC_varWsetTable (m : VarMeta) (t : Fin MAX_THREAD) :
    (m.initThreadVC t).varWsetTable = m.varWsetTable := by
  unfold initThreadVC
  split_ifs <;> rfl

@[simp] theorem initThreadVC_syncRelTable (m : VarMeta) (t : Fin MAX_THREAD) :
    (m.initThreadVC t).syncRelTable = m.syncRelTable := by
  unfold initThreadVC
  split_ifs <;> rfl

@[simp] theorem initThreadVC_cnt (m : VarMeta) (t : Fin MAX_THREAD) :
    (m.initThreadVC t).cnt = m.cnt := by
  unfold initThreadVC
  split_ifs <;> rfl

theorem getThreadVC_ok (m : VarMeta) {tid : ℕ} {t : Fin MAX_THREAD} (ht : t.val = tid) :
    m.getThreadVC tid = .ok (t, m.initThreadVC t) :=
  getThreadVC_eq_ok.mpr ⟨ht, rfl⟩

/-- The operations that the stored access `op` to the address of `e` is compared with. -/
def IsRival (m : VarMeta) (e : Event) (op : Operation) : Prop :=
  op ∈ m.varWsetTable e.varAddr ∨ e.opTy = .st ∧ op ∈ m.varRsetTable e.varAddr

/-- What `getRaceEvents` returns, if the sets hold loads and stores as they should. -/
theorem getRaceEvents_spec {m : VarMeta} {e : Event} {t : Fin MAX_THREAD} (ht : t.val = e.tid)
    (he : e.isAccessEvent) (hr : ∀ op ∈ m.varRsetTable e.varAddr, op.getEvent.evt.opTy = .ld)
    (hw : ∀ op ∈ m.varWsetTable e.varAddr, op.getEvent.evt.opTy = .st) :
    ∃ ret, m.getRaceEvents e = .ok (ret, m.initThreadVC t) ∧
      ∀ q, q ∈ ret ↔ ∃ op, m.IsRival e op ∧
        op.getVC.isConcurrentWith ((m.initThreadVC t).threadVc t) ∧ op.getEvent = q := by
  unfold getRaceEvents IsRival
  rcases Event.isAccessEvent_iff.mp he with hop | hop
  · obtain ⟨ret, hret, hmem⟩ := raceLoop_spec ((m.initThreadVC t).threadVc t) [] hw
    refine ⟨ret, ?_, fun q => ?_⟩
    · simp only [m.getThreadVC_ok ht, hop, if_true, initThreadVC_varWsetTable, bind, Except.bind,
        hret]
      rfl
    · simp [hmem, hop]
  · obtain ⟨ret₁, hret₁, hmem₁⟩ := raceLoop_spec ((m.initThreadVC t).threadVc t) [] hr
    obtain ⟨ret, hret, hmem⟩ := raceLoop_spec ((m.initThreadVC t).threadVc t) ret₁ hw
    refine ⟨ret, ?_, fun q => ?_⟩
    · simp only [m.getThreadVC_ok ht, hop, if_true, reduceCtorEq, if_false, initThreadVC_varWsetTable,
        initThreadVC_varRsetTable, bind, Except.bind, hret₁, hret]
      rfl
    · simp only [hmem, hmem₁, List.not_mem_nil, false_or, hop, true_and, or_and_right, exists_or]
      exact or_comm

/-- The update of the clocks leaves the sets alone. -/
structure SameSets (m m' : VarMeta) : Prop where
  varRsetTable : m'.varRsetTable = m.varRsetTable
  varWsetTable : m'.varWsetTable = m.varWsetTable
  syncRelTable : m'.syncRelTable = m.syncRelTable
  cnt : m'.cnt = m.cnt

theorem HbUpdate.sameSets {m m' : VarMeta} {e : Event} {t : Fin MAX_THREAD} (h : m.HbUpdate e t m') :
    SameSets m m' := by
  cases h <;> constructor <;>
    simp [passToThread, takeFromThread, passToVar, takeFromVar, setThreadVC, setSyncVarVC]

/-- `updateHB` accepts threads and synchronisations of threads that have a clock. -/
theorem updateHB_ok {m : VarMeta} {e : Event} (ht : e.tid < MAX_THREAD)
    (he : e.isThreadOpEvent ∧ e.remoteTid < MAX_THREAD ∨ e.isSyncOpEvent) :
    ∃ m', m.updateHB e = .ok m' ∧ SameSets m m' := by
  have hok : ∃ m', m.updateHB e = .ok m' := by
    unfold updateHB
    by_cases hthr : e.isThreadOpEvent
    · have hr : e.remoteTid < MAX_THREAD := by
        rcases he with he | he
        · exact he.2
        · rcases Event.isThreadOpEvent_iff.mp hthr with h | h <;> simp [Event.isSyncOpEvent, h] at he
      rw [if_pos hthr, handleThreadOpEvent]
      simp only [m.getThreadVC_ok (t := ⟨_, ht⟩) rfl,
        (m.initThreadVC ⟨_, ht⟩).getThreadVC_ok (t := ⟨_, hr⟩) rfl, bind, Except.bind]
      split_ifs <;> exact ⟨_, rfl⟩
    · have hs : e.isSyncOpEvent := he.resolve_left fun h => hthr h.1
      rw [if_neg hthr, if_pos hs, handleSyncOpEvent]
      simp only [m.getThreadVC_ok (t := ⟨_, ht⟩) rfl, bind, Except.bind]
      split_ifs <;> exact ⟨_, rfl⟩
  obtain ⟨m', hm'⟩ := hok
  obtain ⟨t, -, hup⟩ := updateHB_update hm'
  have h := hup.sameSets
  refine ⟨m', hm', ?_, ?_, ?_, ?_⟩
  · rw [h.varRsetTable, initThreadVC_varRsetTable]
  · rw [h.varWsetTable, initThreadVC_varWsetTable]
  · rw [h.syncRelTable, initThreadVC_syncRelTable]
  · rw [h.cnt, initThreadVC_cnt]

theorem syncHbLoop_spec {ops : List Operation} (ret : List EventPtr)
    (h : ∀ op ∈ ops, op.getEvent.evt.isSyncRelEvent) :
    ∃ ret', syncHbLoop ops ret = .ok ret' ∧
      ∀ q, q ∈ ret' ↔ q ∈ ret ∨ ∃ op ∈ ops, op.getEvent = q := by
  induction ops generalizing ret with
  | nil => exact ⟨ret, rfl, fun q => by simp⟩
  | cons op ops ih =>
    obtain ⟨ret', hret', hmem⟩ := ih (ret.insert op.getEvent)
      fun o ho => h o (List.mem_cons_of_mem _ ho)
    refine ⟨ret', ?_, fun q => ?_⟩
    · rw [syncHbLoop, if_neg (not_not.mpr (h op List.mem_cons_self)), hret']
    · rw [hmem q]
      simp only [List.mem_insert_iff, List.mem_cons, exists_eq_or_imp]
      constructor
      · rintro ((rfl | h) | h)
        · exact Or.inr (Or.inl rfl)
        · exact Or.inl h
        · exact Or.inr (Or.inr h)
      · rintro (h | rfl | h)
        · exact Or.inl (Or.inr h)
        · exact Or.inl (Or.inl rfl)
        · exact Or.inr h

end VarMeta

namespace RaceAnalyze

theorem addRaces_spec (ra : RaceAnalyze) {p : EventPtr} {rs : List EventPtr}
    (h : ∀ r ∈ rs, r.evt.varAddr = p.evt.varAddr) :
    ∃ ra', ra.addRaces p rs = .ok ra' ∧ ra'.varMeta = ra.varMeta ∧
      ∀ x, x ∈ ra'.raceEvtPairs ↔ x ∈ ra.raceEvtPairs ∨ ∃ r ∈ rs, x = (r.pos, p.pos) := by
  induction rs generalizing ra with
  | nil => exact ⟨ra, rfl, rfl, fun x => by simp⟩
  | cons r rs ih =>
    obtain ⟨ra', hra', hm, hmem⟩ := ih
      { ra with raceEvtPairs := insert (r.pos, p.pos) ra.raceEvtPairs }
      fun r' hr' => h r' (List.mem_cons_of_mem _ hr')
    refine ⟨ra', ?_, hm, fun x => ?_⟩
    · rw [addRaces, addRace, if_neg (not_not.mpr (h r List.mem_cons_self))]
      exact hra'
    · rw [hmem x]
      simp only [Finset.mem_insert, List.mem_cons, exists_eq_or_imp]
      tauto

theorem addSyncHbs_spec (ra : RaceAnalyze) {p : EventPtr} {rs : List EventPtr}
    (h : ∀ r ∈ rs, r.evt.varAddr = p.evt.varAddr) :
    ∃ ra', ra.addSyncHbs p rs = .ok ra' ∧ ra'.varMeta = ra.varMeta ∧
      ra'.raceEvtPairs = ra.raceEvtPairs := by
  induction rs generalizing ra with
  | nil => exact ⟨ra, rfl, rfl, rfl⟩
  | cons r rs ih =>
    obtain ⟨ra', hra', hm, hmem⟩ := ih
      { ra with syncHbEvtPairs := insert (r.pos, p.pos) ra.syncHbEvtPairs }
      fun r' hr' => h r' (List.mem_cons_of_mem _ hr')
    refine ⟨ra', ?_, hm, hmem⟩
    rw [addSyncHbs, addSyncHb, if_neg (not_not.mpr (h r List.mem_cons_self))]
    exact hra'

end RaceAnalyze

/-! ### What the sets hold -/

section Live

variable (evts : List Event)

/-- Event `i` is an access of type `ty` to `a`, and in front of place `k` no store to `a` has
come after it. -/
structure Live (ty : OpTy) (a : Addr) (k i : ℕ) : Prop where
  lt : i < k
  access : ∃ e, evts[i]? = some e ∧ e.opTy = ty ∧ e.varAddr = a
  last : ∀ l f, i < l → l < k → evts[l]? = some f → f.opTy = .st → f.varAddr ≠ a

/-- The operations of type `ty` in front of place `k`, as stored for the address `a`. -/
structure SetRep (V : ℕ → VectorClock) (ty : OpTy) (a : Addr) (k cnt : ℕ) (ops : List Operation) :
    Prop where
  /-- Only live accesses are stored, each with its stamp. -/
  sound : ∀ op ∈ ops, Live evts ty a k op.getEvent.pos ∧
    evts[op.getEvent.pos]? = some op.getEvent.evt ∧ op.getVC = V op.getEvent.pos
  /-- All of them are. -/
  complete : ∀ i, Live evts ty a k i → ∃ op ∈ ops, op.getEvent.pos = i
  /-- The counter is ahead. -/
  id_lt : ∀ op ∈ ops, op.id < cnt

variable {evts} {V : ℕ → VectorClock} {ty : OpTy} {a : Addr} {k cnt cnt' : ℕ} {ops : List Operation}
  {e : Event}

theorem live_zero (i : ℕ) : ¬ Live evts ty a 0 i := fun h => Nat.not_lt_zero _ h.lt

/-- What is live after one more event. -/
theorem live_succ (he : evts[k]? = some e) {i : ℕ} :
    Live evts ty a (k + 1) i ↔
      i = k ∧ e.opTy = ty ∧ e.varAddr = a ∨ Live evts ty a k i ∧ ¬ (e.opTy = .st ∧ e.varAddr = a) := by
  constructor
  · rintro ⟨hlt, ⟨f, hf, hty, ha⟩, hlast⟩
    rcases Nat.lt_succ_iff_lt_or_eq.mp hlt with hik | rfl
    · refine Or.inr ⟨⟨hik, ⟨f, hf, hty, ha⟩, fun l g hil hlk => hlast l g hil (by omega)⟩, ?_⟩
      rintro ⟨hst, ha'⟩
      exact hlast k e hik (by omega) he hst ha'
    · obtain rfl : e = f := Option.some.inj (he.symm.trans hf)
      exact Or.inl ⟨rfl, hty, ha⟩
  · rintro (⟨rfl, hty, ha⟩ | ⟨⟨hlt, hacc, hlast⟩, hst⟩)
    · exact ⟨by omega, ⟨e, he, hty, ha⟩, fun l f hil hlk => by omega⟩
    · refine ⟨by omega, hacc, fun l f hil hlk hf hfst => ?_⟩
      rcases Nat.lt_succ_iff_lt_or_eq.mp hlk with hlk | rfl
      · exact hlast l f hil hlk hf hfst
      · obtain rfl : e = f := Option.some.inj (he.symm.trans hf)
        exact fun ha => hst ⟨hfst, ha⟩

theorem SetRep.opTy (h : SetRep evts V ty a k cnt ops) {op : Operation} (hop : op ∈ ops) :
    op.getEvent.evt.opTy = ty ∧ op.getEvent.evt.varAddr = a := by
  obtain ⟨⟨-, ⟨f, hf, hty, ha⟩, -⟩, he, -⟩ := h.sound op hop
  obtain rfl : f = op.getEvent.evt := Option.some.inj (hf.symm.trans he)
  exact ⟨hty, ha⟩

theorem SetRep.start : SetRep evts V ty a 0 cnt [] :=
  ⟨fun _ h => absurd h List.not_mem_nil, fun i h => absurd h (live_zero i),
    fun _ h => absurd h List.not_mem_nil⟩

theorem SetRep.mono (h : SetRep evts V ty a k cnt ops) (hcnt : cnt ≤ cnt') :
    SetRep evts V ty a k cnt' ops :=
  ⟨h.sound, h.complete, fun op hop => (h.id_lt op hop).trans_le hcnt⟩

/-- An event that is no access of the set's kind leaves the set as it is. -/
theorem SetRep.frame (h : SetRep evts V ty a k cnt ops) (he : evts[k]? = some e) (hcnt : cnt ≤ cnt')
    (hty : ¬ (e.opTy = ty ∧ e.varAddr = a)) (hst : ¬ (e.opTy = .st ∧ e.varAddr = a)) :
    SetRep evts V ty a (k + 1) cnt' ops := by
  have hlive : ∀ i, Live evts ty a (k + 1) i ↔ Live evts ty a k i := by
    intro i
    rw [live_succ he]
    simp only [hst, not_false_iff, and_true, or_iff_right_iff_imp]
    exact fun h' => absurd h'.2 hty
  refine ⟨fun op hop => ?_, fun i hi => h.complete i ((hlive i).mp hi),
    fun op hop => (h.id_lt op hop).trans_le hcnt⟩
  rw [hlive]
  exact h.sound op hop

/-- A load joins the loads. -/
theorem SetRep.putRead (h : SetRep evts V .ld a k cnt ops) (he : evts[k]? = some e)
    (hty : e.opTy = .ld) (ha : e.varAddr = a) :
    SetRep evts V .ld a (k + 1) (cnt + 1) (emplace ops ⟨cnt, ⟨k, e⟩, V k⟩) := by
  have hlive : ∀ i, Live evts .ld a (k + 1) i ↔ i = k ∨ Live evts .ld a k i := by
    intro i
    rw [live_succ he]
    simp [hty, ha]
  have hmem : ∀ o, o ∈ emplace ops ⟨cnt, ⟨k, e⟩, V k⟩ ↔ o ∈ ops ∨ o = ⟨cnt, ⟨k, e⟩, V k⟩ :=
    fun o => mem_emplace h.id_lt
  refine ⟨fun op hop => ?_, fun i hi => ?_, fun op hop => ?_⟩
  · rw [hlive]
    rcases (hmem op).mp hop with hop | rfl
    · obtain ⟨hl, hrest⟩ := h.sound op hop
      exact ⟨Or.inr hl, hrest⟩
    · exact ⟨Or.inl rfl, he, rfl⟩
  · rcases (hlive i).mp hi with rfl | hi
    · exact ⟨_, (hmem _).mpr (Or.inr rfl), rfl⟩
    · obtain ⟨op, hop, hi⟩ := h.complete i hi
      exact ⟨op, (hmem _).mpr (Or.inl hop), hi⟩
  · rcases (hmem op).mp hop with hop | rfl
    · exact (h.id_lt op hop).trans (Nat.lt_succ_self _)
    · exact Nat.lt_succ_self _

/-- A store empties the set of loads. -/
theorem SetRep.clear (he : evts[k]? = some e) (hst : e.opTy = .st) (ha : e.varAddr = a) :
    SetRep evts V .ld a (k + 1) cnt [] := by
  refine ⟨fun _ h => absurd h List.not_mem_nil, fun i hi => ?_, fun _ h => absurd h List.not_mem_nil⟩
  rw [live_succ he] at hi
  simp [hst, ha] at hi

/-- A store replaces the stores. -/
theorem SetRep.putWrite (he : evts[k]? = some e) (hst : e.opTy = .st) (ha : e.varAddr = a) :
    SetRep evts V .st a (k + 1) (cnt + 1) (emplace [] ⟨cnt, ⟨k, e⟩, V k⟩) := by
  have hlive : ∀ i, Live evts .st a (k + 1) i ↔ i = k := by
    intro i
    rw [live_succ he]
    simp [hst, ha]
  rw [emplace_eq (by simp), List.nil_append]
  refine ⟨fun op hop => ?_, fun i hi => ?_, fun op hop => ?_⟩
  · obtain rfl := List.mem_singleton.mp hop
    exact ⟨(hlive _).mpr rfl, he, rfl⟩
  · exact ⟨_, List.mem_singleton_self _, ((hlive i).mp hi).symm⟩
  · obtain rfl := List.mem_singleton.mp hop
    exact Nat.lt_succ_self _

end Live

/-! ### The invariant -/

section Invariant

variable (evts : List Event)

/-- Event `i` is compared with the access `j`: a store or, if `j` is one, a load. -/
def Conflict (i j : ℕ) : Prop :=
  ∃ f, evts[j]? = some f ∧ f.isAccessEvent ∧
    (Live evts .st f.varAddr j i ∨ f.opTy = .st ∧ Live evts .ld f.varAddr j i)

/-- In front of the event at place `k` the sets are as they should be. -/
structure SetsInv (V : ℕ → VectorClock) (k : ℕ) (m : VarMeta) : Prop where
  /-- The read sets. -/
  rset : ∀ a, SetRep evts V .ld a k m.cnt (m.varRsetTable a)
  /-- The write sets. -/
  wset : ∀ a, SetRep evts V .st a k m.cnt (m.varWsetTable a)
  /-- The releases, which `getSyncHbEvents` and `addSyncHb` check. -/
  rel : ∀ a, ∀ op ∈ m.syncRelTable a, op.getEvent.evt.isSyncRelEvent ∧ op.getEvent.evt.varAddr = a
  /-- The next release is not taken for one of them. -/
  rel_lt : ∀ a, ∀ op ∈ m.syncRelTable a, op.id < m.cnt

/-- And the pairs found so far. -/
structure AccessInv (V : ℕ → VectorClock) (k : ℕ) (ra : RaceAnalyze) : Prop where
  /-- The sets. -/
  sets : SetsInv evts V k ra.varMeta
  /-- The pairs. -/
  races : ∀ i j, (i, j) ∈ ra.raceEvtPairs ↔
    j < k ∧ Conflict evts i j ∧ (V i).isConcurrentWith (V j)

variable {evts} {V : ℕ → VectorClock} {k : ℕ} {e : Event} {m m' : VarMeta} {ra ra' : RaceAnalyze}
  {t : Fin MAX_THREAD}

theorem SetsInv.start : SetsInv evts V 0 .init where
  rset := fun _ => .start
  wset := fun _ => .start
  rel := fun _ _ h => absurd h List.not_mem_nil
  rel_lt := fun _ _ h => absurd h List.not_mem_nil

theorem AccessInv.start : AccessInv evts V 0 .init where
  sets := .start
  races := fun i j => by simp [RaceAnalyze.init]

theorem SetsInv.congr (h : SetsInv evts V k m) (hm : VarMeta.SameSets m m') : SetsInv evts V k m' := by
  obtain ⟨h₁, h₂, h₃, h₄⟩ := hm
  constructor <;> simp only [h₁, h₂, h₃, h₄]
  · exact h.rset
  · exact h.wset
  · exact h.rel
  · exact h.rel_lt

theorem sameSets_initThreadVC (m : VarMeta) (t : Fin MAX_THREAD) :
    VarMeta.SameSets m (m.initThreadVC t) := by
  constructor <;> simp

/-- An event that is no access leaves the sets as they are. -/
theorem SetsInv.frame (h : SetsInv evts V k m) (he : evts[k]? = some e) (hacc : ¬ e.isAccessEvent) :
    SetsInv evts V (k + 1) m := by
  rw [Event.isAccessEvent_iff, not_or] at hacc
  exact ⟨fun a => (h.rset a).frame he le_rfl (fun h => hacc.1 h.1) fun h => hacc.2 h.1,
    fun a => (h.wset a).frame he le_rfl (fun h => hacc.2 h.1) fun h => hacc.2 h.1, h.rel, h.rel_lt⟩

/-- A load joins the loads of its address. -/
theorem SetsInv.putRead (h : SetsInv evts V k m) (he : evts[k]? = some e) (hop : e.opTy = .ld)
    (ht : t.val = e.tid) (hV : V k = (m.initThreadVC t).threadVc t) :
    ∃ m', m.putRead ⟨k, e⟩ = .ok m' ∧ SetsInv evts V (k + 1) m' := by
  have hput := m.getThreadVC_ok ht
  refine ⟨_, by rw [VarMeta.putRead, hput]; rfl, ?_⟩
  have hm := h.congr (sameSets_initThreadVC m t)
  rw [← hV]
  refine ⟨fun a => ?_, fun a => ?_, hm.rel, fun a op hop => (hm.rel_lt a op hop).trans (Nat.lt_succ_self _)⟩
  · dsimp only
    by_cases ha : a = e.varAddr
    · subst ha
      rw [Function.update_self]
      exact (hm.rset e.varAddr).putRead he hop rfl
    · rw [Function.update_of_ne ha]
      exact (hm.rset a).frame he (Nat.le_succ _) (fun h => ha h.2.symm) (by simp [hop])
  · exact (hm.wset a).frame he (Nat.le_succ _) (by simp [hop]) (by simp [hop])

/-- A store replaces the loads and stores of its address. -/
theorem SetsInv.putWrite (h : SetsInv evts V k m) (he : evts[k]? = some e) (hop : e.opTy = .st)
    (ht : t.val = e.tid) (hV : V k = (m.initThreadVC t).threadVc t) :
    ∃ m', m.putWrite ⟨k, e⟩ = .ok m' ∧ SetsInv evts V (k + 1) m' := by
  have hput := m.getThreadVC_ok ht
  refine ⟨_, by rw [VarMeta.putWrite, hput]; rfl, ?_⟩
  have hm := h.congr (sameSets_initThreadVC m t)
  rw [← hV]
  refine ⟨fun a => ?_, fun a => ?_, hm.rel, fun a op hop => (hm.rel_lt a op hop).trans (Nat.lt_succ_self _)⟩
  · dsimp only
    by_cases ha : a = e.varAddr
    · subst ha
      rw [Function.update_self]
      exact SetRep.clear he hop rfl
    · rw [Function.update_of_ne ha]
      exact (hm.rset a).frame he (Nat.le_succ _) (by simp [hop]) fun h => ha h.2.symm
  · dsimp only
    by_cases ha : a = e.varAddr
    · subst ha
      rw [Function.update_self]
      exact SetRep.putWrite he hop rfl
    · rw [Function.update_of_ne ha]
      exact (hm.wset a).frame he (Nat.le_succ _) (fun h => ha h.2.symm) fun h => ha h.2.symm

/-- A release joins the releases of its address. -/
theorem SetsInv.putSyncRel (h : SetsInv evts V k m) (hop : e.isSyncRelEvent) (ht : t.val = e.tid) :
    ∃ m', m.putSyncRel ⟨k, e⟩ = .ok m' ∧ SetsInv evts V k m' := by
  have hput := m.getThreadVC_ok ht
  refine ⟨_, by rw [VarMeta.putSyncRel, if_neg (not_not.mpr hop), hput]; rfl, ?_⟩
  have hm := h.congr (sameSets_initThreadVC m t)
  have hcnt : (m.initThreadVC t).cnt ≤ (m.initThreadVC t).cnt + 1 := Nat.le_succ _
  refine ⟨fun a => (hm.rset a).mono hcnt, fun a => (hm.wset a).mono hcnt, fun a op ho => ?_,
    fun a op ho => ?_⟩ <;> dsimp only at ho <;> by_cases ha : a = e.varAddr
  · subst ha
    rw [Function.update_self, mem_emplace (hm.rel_lt _)] at ho
    rcases ho with ho | rfl
    · exact hm.rel _ op ho
    · exact ⟨hop, rfl⟩
  · rw [Function.update_of_ne ha] at ho
    exact hm.rel a op ho
  · subst ha
    rw [Function.update_self, mem_emplace (hm.rel_lt _)] at ho
    rcases ho with ho | rfl
    · exact (hm.rel_lt _ op ho).trans_le hcnt
    · exact Nat.lt_succ_self _
  · rw [Function.update_of_ne ha] at ho
    exact (hm.rel_lt a op ho).trans_le hcnt

/-- An acquire forgets the releases of its address. -/
theorem SetsInv.clearSyncRel (h : SetsInv evts V k m) (p : EventPtr) :
    SetsInv evts V k (m.clearSyncRel p) := by
  refine ⟨h.rset, h.wset, fun a op ho => ?_, fun a op ho => ?_⟩ <;>
    by_cases ha : a = p.evt.varAddr
  · subst ha
    simp [VarMeta.clearSyncRel] at ho
  · simp only [VarMeta.clearSyncRel, Function.update_of_ne ha] at ho
    exact h.rel a op ho
  · subst ha
    simp [VarMeta.clearSyncRel] at ho
  · simp only [VarMeta.clearSyncRel, Function.update_of_ne ha] at ho
    exact h.rel_lt a op ho

/-- The pairs after one more event. -/
theorem races_succ (hr : ∀ i j, (i, j) ∈ ra.raceEvtPairs ↔
      j < k ∧ Conflict evts i j ∧ (V i).isConcurrentWith (V j))
    (hr' : ∀ i j, (i, j) ∈ ra'.raceEvtPairs ↔ (i, j) ∈ ra.raceEvtPairs ∨
      j = k ∧ Conflict evts i k ∧ (V i).isConcurrentWith (V k)) (i j : ℕ) :
    (i, j) ∈ ra'.raceEvtPairs ↔ j < k + 1 ∧ Conflict evts i j ∧ (V i).isConcurrentWith (V j) := by
  rw [hr', hr, Nat.lt_succ_iff_lt_or_eq, or_and_right]
  refine or_congr_right ⟨?_, ?_⟩ <;> rintro ⟨rfl, h⟩ <;> exact ⟨rfl, h⟩

/-- The events that `getRaceEvents` returns for an access are its concurrent rivals. -/
theorem SetsInv.mem_rivals (h : SetsInv evts V k m) (he : evts[k]? = some e)
    (hacc : e.isAccessEvent) {i : ℕ} :
    (∃ op, m.IsRival e op ∧ op.getVC.isConcurrentWith (V k) ∧ op.getEvent.pos = i) ↔
      Conflict evts i k ∧ (V i).isConcurrentWith (V k) := by
  constructor
  · rintro ⟨op, hop | ⟨hst, hop⟩, hc, rfl⟩
    · obtain ⟨hlive, -, hvc⟩ := (h.wset _).sound op hop
      exact ⟨⟨e, he, hacc, Or.inl hlive⟩, hvc ▸ hc⟩
    · obtain ⟨hlive, -, hvc⟩ := (h.rset _).sound op hop
      exact ⟨⟨e, he, hacc, Or.inr ⟨hst, hlive⟩⟩, hvc ▸ hc⟩
  · rintro ⟨⟨f, hf, -, hlive⟩, hc⟩
    obtain rfl : e = f := Option.some.inj (he.symm.trans hf)
    rcases hlive with hlive | ⟨hst, hlive⟩
    · obtain ⟨op, hop, rfl⟩ := (h.wset _).complete i hlive
      exact ⟨op, Or.inl hop, ((h.wset _).sound op hop).2.2 ▸ hc, rfl⟩
    · obtain ⟨op, hop, rfl⟩ := (h.rset _).complete i hlive
      exact ⟨op, Or.inr ⟨hst, hop⟩, ((h.rset _).sound op hop).2.2 ▸ hc, rfl⟩

/-- **An access** finds its rivals and joins the sets; no `assert` can stop it. -/
theorem AccessInv.handleVarAccessEvent (hinv : AccessInv evts V k ra) (he : evts[k]? = some e)
    (hacc : e.isAccessEvent) (ht : t.val = e.tid)
    (hV : V k = (ra.varMeta.initThreadVC t).threadVc t) :
    ∃ ra', ra.handleVarAccessEvent ⟨k, e⟩ = .ok ra' ∧ AccessInv evts V (k + 1) ra' := by
  obtain ⟨hsets, hraces⟩ := hinv
  obtain ⟨ret, hret, hmem⟩ := VarMeta.getRaceEvents_spec ht hacc
    (fun op hop => ((hsets.rset _).opTy hop).1) fun op hop => ((hsets.wset _).opTy hop).1
  rw [← hV] at hmem
  have haddr : ∀ r ∈ ret, r.evt.varAddr = e.varAddr := by
    intro r hr
    obtain ⟨op, hop | ⟨-, hop⟩, -, rfl⟩ := (hmem r).mp hr
    · exact ((hsets.wset _).opTy hop).2
    · exact ((hsets.rset _).opTy hop).2
  obtain ⟨ra₁, hra₁, hm, hpairs⟩ := RaceAnalyze.addRaces_spec
    { ra with varMeta := ra.varMeta.initThreadVC t } (p := ⟨k, e⟩) haddr
  have hraces' : ∀ i j, (i, j) ∈ ra₁.raceEvtPairs ↔
      j < k + 1 ∧ Conflict evts i j ∧ (V i).isConcurrentWith (V j) := by
    apply races_succ hraces
    intro i j
    rw [hpairs, ← hsets.mem_rivals he hacc]
    apply or_congr_right
    simp only [Prod.mk.injEq]
    constructor
    · rintro ⟨r, hr, rfl, rfl⟩
      obtain ⟨op, hop, hc, rfl⟩ := (hmem r).mp hr
      exact ⟨rfl, op, hop, hc, rfl⟩
    · rintro ⟨rfl, op, hop, hc, rfl⟩
      exact ⟨_, (hmem _).mpr ⟨op, hop, hc, rfl⟩, rfl, rfl⟩
  have hsets₁ : SetsInv evts V k ra₁.varMeta := by
    rw [hm]
    exact hsets.congr (sameSets_initThreadVC _ t)
  have hV₁ : V k = (ra₁.varMeta.initThreadVC t).threadVc t := by
    rw [hm, VarMeta.initThreadVC_idem, hV]
  rcases Event.isAccessEvent_iff.mp hacc with hop | hop
  · obtain ⟨m', hput, hsets'⟩ := hsets₁.putRead he hop ht hV₁
    refine ⟨{ ra₁ with varMeta := m' }, ?_, hsets', hraces'⟩
    simp only [RaceAnalyze.handleVarAccessEvent, hret, hra₁, hop, hput, bind, Except.bind, if_true]
    rfl
  · obtain ⟨m', hput, hsets'⟩ := hsets₁.putWrite he hop ht hV₁
    refine ⟨{ ra₁ with varMeta := m' }, ?_, hsets', hraces'⟩
    simp only [RaceAnalyze.handleVarAccessEvent, hret, hra₁, hop, hput, bind, Except.bind, if_true,
      reduceCtorEq, if_false]
    rfl

/-- The first half of an acquire. -/
theorem SetsInv.handleSyncRel_of_acq (hsets : SetsInv evts V k ra.varMeta) (ha : e.isSyncAcqEvent) :
    ∃ ra₁, ra.handleSyncRel ⟨k, e⟩ = .ok ra₁ ∧ SetsInv evts V k ra₁.varMeta ∧
      ra₁.raceEvtPairs = ra.raceEvtPairs := by
  obtain ⟨ret, hret, hmem⟩ := VarMeta.syncHbLoop_spec [] fun op hop =>
    (hsets.rel e.varAddr op hop).1
  have haddr : ∀ r ∈ ret, r.evt.varAddr = e.varAddr := by
    intro r hr
    rw [hmem] at hr
    obtain h | ⟨op, hop, rfl⟩ := hr
    · exact absurd h List.not_mem_nil
    · exact (hsets.rel _ op hop).2
  obtain ⟨ra₁, hra₁, hm, hpairs⟩ := RaceAnalyze.addSyncHbs_spec ra (p := ⟨k, e⟩) haddr
  refine ⟨{ ra₁ with varMeta := ra₁.varMeta.clearSyncRel ⟨k, e⟩ }, ?_, (hm ▸ hsets).clearSyncRel _, hpairs⟩
  simp only [RaceAnalyze.handleSyncRel, VarMeta.getSyncHbEvents, ha, not_true_eq_false, if_false, if_true, hret, hra₁,
    bind, Except.bind]
  rfl

/-- **A synchronisation** leaves the access sets and the pairs alone; no `assert` can stop it. -/
theorem AccessInv.handleSyncOpEvent (hinv : AccessInv evts V k ra) (he : evts[k]? = some e)
    (ht : e.tid < MAX_THREAD)
    (hs : e.isThreadOpEvent ∧ e.remoteTid < MAX_THREAD ∨ e.isSyncOpEvent) :
    ∃ ra', ra.handleSyncOpEvent ⟨k, e⟩ = .ok ra' ∧ AccessInv evts V (k + 1) ra' := by
  obtain ⟨hsets, hraces⟩ := hinv
  have hacc : ¬ e.isAccessEvent := by
    rw [Event.isAccessEvent_iff]
    rintro (h | h) <;> simp [Event.isThreadOpEvent, Event.isSyncOpEvent, h] at hs
  have hrel : ∃ ra₁, ra.handleSyncRel ⟨k, e⟩ = .ok ra₁ ∧ SetsInv evts V k ra₁.varMeta ∧
      ra₁.raceEvtPairs = ra.raceEvtPairs := by
    by_cases ha : e.isSyncAcqEvent
    · exact hsets.handleSyncRel_of_acq ha
    unfold RaceAnalyze.handleSyncRel
    rw [if_neg ha]
    split_ifs with hr
    · obtain ⟨m', hm', hsets'⟩ := hsets.putSyncRel (t := ⟨_, ht⟩) hr rfl
      exact ⟨{ ra with varMeta := m' }, by rw [hm']; rfl, hsets', rfl⟩
    · exact ⟨ra, rfl, hsets, rfl⟩
  obtain ⟨ra₁, hra₁, hsets₁, hpairs⟩ := hrel
  obtain ⟨m', hm', hsame⟩ := VarMeta.updateHB_ok (m := ra₁.varMeta) ht hs
  refine ⟨{ ra₁ with varMeta := m' }, ?_, (hsets₁.congr hsame).frame he hacc, ?_⟩
  · simp only [RaceAnalyze.handleSyncOpEvent, hra₁, hm', bind, Except.bind]
    rfl
  · apply races_succ hraces
    intro i j
    rw [hpairs, or_iff_left]
    rintro ⟨-, ⟨f, hf, hacc', -⟩, -⟩
    obtain rfl : e = f := Option.some.inj (he.symm.trans hf)
    exact hacc hacc'

/-- The events that the analysis accepts. -/
def Accepted (isSyncVar : Addr → Bool) (e : Event) : Prop :=
  e.tid < MAX_THREAD ∧
    (e.isThreadOpEvent ∧ e.remoteTid < MAX_THREAD ∨ e.isSyncOpEvent ∨
      e.isAccessEvent ∧ e.varLen = 1 ∧ ¬ isSyncVar e.varAddr)

instance (isSyncVar : Addr → Bool) (e : Event) : Decidable (Accepted isSyncVar e) :=
  inferInstanceAs (Decidable (_ ∧ _))

variable {isSyncVar : Addr → Bool}

theorem AccessInv.handleEvent_of_accepted (hinv : AccessInv evts V k ra) (he : evts[k]? = some e)
    (hV : V k = ra.varMeta.stamp e) (hacc : Accepted isSyncVar e) :
    ∃ ra', ra.handleEvent isSyncVar ⟨k, e⟩ = .ok ra' ∧ AccessInv evts V (k + 1) ra' := by
  obtain ⟨ht, hkind⟩ := hacc
  unfold RaceAnalyze.handleEvent
  by_cases hs : e.isThreadOpEvent ∨ e.isSyncOpEvent
  · rw [if_pos (by simpa using hs)]
    apply hinv.handleSyncOpEvent he ht
    rcases hkind with h | h | ⟨h, -⟩
    · exact Or.inl h
    · exact Or.inr h
    · exfalso
      rcases Event.isAccessEvent_iff.mp h with h | h <;>
        simp [Event.isThreadOpEvent, Event.isSyncOpEvent, h] at hs
  · rw [if_neg (by simpa using hs)]
    obtain ⟨hacc, hlen, hsv⟩ : e.isAccessEvent ∧ e.varLen = 1 ∧ ¬ isSyncVar e.varAddr := by
      rcases hkind with ⟨h, -⟩ | h | h
      · exact absurd (Or.inl h) hs
      · exact absurd (Or.inr h) hs
      · exact h
    have hV' : V k = (ra.varMeta.initThreadVC ⟨_, ht⟩).threadVc ⟨_, ht⟩ := by
      rw [hV, ← VarMeta.stamp_initThreadVC _ (t := ⟨_, ht⟩) rfl]
      refine VarMeta.stamp_of_else (VarMeta.initThreadVC_isInit _ _) rfl ?_ ?_ <;>
        rcases Event.isAccessEvent_iff.mp hacc with h | h <;> simp [Event.isSyncAcqEvent, h]
    obtain ⟨ra', hra', hinv'⟩ := hinv.handleVarAccessEvent he hacc (t := ⟨_, ht⟩) rfl hV'
    refine ⟨ra', ?_, hinv'⟩
    simp only [Event.isVarAccessEvent_eq_true.mpr ⟨hacc, hlen⟩, bind, Except.bind, hsv, Bool.not_false,
      Bool.and_self, if_true]
    exact hra'

theorem accepted_of_ok (h : ra.handleEvent isSyncVar ⟨k, e⟩ = .ok ra') : Accepted isSyncVar e := by
  obtain ⟨t, ht, m, m', -, hup, -⟩ := RaceAnalyze.handleEvent_clocks h
  refine ⟨ht ▸ t.isLt, ?_⟩
  rcases RaceAnalyze.handleEvent_cases h with ⟨hs, -⟩ | ⟨hacc, hlen, hsv, -⟩
  · rcases hs with hs | hs
    · have hty : e.opTy = .create ∨ e.opTy = .join := Event.isThreadOpEvent_iff.mp hs
      have hr : e.remoteTid < MAX_THREAD := by
        cases hup with
        | @create r _ hr => exact hr ▸ r.isLt
        | @join r _ hr => exact hr ▸ r.isLt
        | release hop =>
          rcases hty with h | h <;> simp [Event.isSyncRelEvent, h] at hop
        | acquire hop =>
          rcases hty with h | h <;> simp [Event.isSyncAcqEvent, h] at hop
        | internal hop =>
          rcases hty with h | h <;> simp [Event.isAccessEvent, h] at hop
      exact Or.inl ⟨hs, hr⟩
    · exact Or.inr (Or.inl hs)
  · exact Or.inr (Or.inr ⟨hacc, hlen, hsv⟩)

/-- **One event** keeps the sets and the pairs as they should be. -/
theorem AccessInv.handleEvent (hinv : AccessInv evts V k ra) (he : evts[k]? = some e)
    (hV : V k = ra.varMeta.stamp e) (h : ra.handleEvent isSyncVar ⟨k, e⟩ = .ok ra') :
    AccessInv evts V (k + 1) ra' := by
  obtain ⟨ra'', hra'', hinv'⟩ := hinv.handleEvent_of_accepted he hV (accepted_of_ok h)
  obtain rfl : ra' = ra'' := Except.ok.inj (h.symm.trans hra'')
  exact hinv'

end Invariant

/-! ### Runs -/

section Runs

open RaceAnalyze

variable {isSyncVar : Addr → Bool} {evts : List Event} {k : ℕ} {ra : RaceAnalyze}

/-- The invariant holds in front of every event that the analysis reaches. -/
theorem accessInv_stateAt (hk : k ≤ evts.length) (hra : stateAt isSyncVar evts k = .ok ra) :
    AccessInv evts (stampAt isSyncVar evts) k ra :=
  run_induction (P := fun k ra => AccessInv evts (stampAt isSyncVar evts) k ra) AccessInv.start
    (fun _ _ _ _ he hra₁ hinv hstep => hinv.handleEvent he (stampAt_eq hra₁ he) hstep) hk hra

/-- **The analysis accepts a trace exactly when it accepts each event**: what it has stored
never stops it. -/
theorem analyzeLoop_ok_iff :
    (∃ ra, analyzeLoop isSyncVar evts 0 .init = .ok ra) ↔ ∀ e ∈ evts, Accepted isSyncVar e := by
  constructor
  · rintro ⟨ra, h⟩ e he
    obtain ⟨k, hk⟩ := List.mem_iff_getElem?.mp he
    obtain ⟨ra₁, ra₂, -, hstep, -⟩ := stateAt_step h hk
    exact accepted_of_ok hstep
  · intro hall
    cases h : analyzeLoop isSyncVar evts 0 .init with
    | ok ra => exact ⟨ra, rfl⟩
    | error a =>
      obtain ⟨k, e, ra, he, hra, herr⟩ := analyzeLoop_error h
      have hinv := accessInv_stateAt (List.getElem?_eq_some_iff.mp he).1.le hra
      obtain ⟨ra', hra', -⟩ := hinv.handleEvent_of_accepted he
        (stampAt_eq hra he) (hall e (List.mem_of_getElem? he))
      rw [hra'] at herr
      cases herr

end Runs

end Schnauzer
