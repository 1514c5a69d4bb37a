import Schnauzer.Core.Logger

/-!
# Slots of the log

Which slots a thread has reserved and not yet filled (`LogLocal.held`), and the discipline that
the callers of the logger keep (`batchStep`): batches are opened and closed in turn, with an event
for each of their slots, and pairs of events are not logged inside a batch.

## What is proved

* `Logger.exec_spec` — a call that keeps the discipline fails no `assert` but that of a full log; it
  moves the size on and gives the new slots to its thread.
* `Logger.store_spec` — a store fills one slot of its thread.
* `Slots.took`, `Slots.store` — with any number of threads, each slot below the size stays either filled
  or held by exactly one thread.
-/

namespace Schnauzer

/-- The slots that a thread has reserved and not yet filled. -/
def LogLocal.held (l : LogLocal) : Set ℕ :=
  {n | n ∈ l.pend.map Prod.fst ∨
    Logger.inBatch l ∧ l.batchId + l.batchPos ≤ n ∧ n < l.batchId + l.batchSz}

/-- How many events an open batch still needs. -/
def LogLocal.missing (l : LogLocal) : Option ℕ :=
  if Logger.inBatch l then some (l.batchSz - l.batchPos) else none

/-- The events that a call logs, from their timestamps. -/
def LogCall.makers (inst tid : ℕ) : LogCall → List (ℕ → Event)
  | .startBatch _ | .startBatchFor _ | .endBatch => []
  | .logVarAccessEvent ty addr => [fun ts => .makeVarAccessEvent inst ts tid ty addr]
  | .logArrayAccessEvent ty addr len => [fun ts => .makeArrayAccessEvent inst ts tid ty addr len]
  | .logSyncOpEvent ty addr => [fun ts => .makeSyncOpEvent inst ts tid ty addr]
  | .logThreadCreateEvent remoteTid => [fun ts => .makeThreadEvent inst ts tid .create remoteTid]
  | .logThreadJoinEvent remoteTid => [fun ts => .makeThreadEvent inst ts tid .join remoteTid]
  | .logCondWaitEvent mutexAddr condAddr =>
    [fun ts => .makeSyncOpEvent inst ts tid .unlock mutexAddr,
      fun ts => .makeSyncOpEvent inst ts tid .wait condAddr]
  | .logCondAwakeEvent mutexAddr condAddr =>
    [fun ts => .makeSyncOpEvent inst ts tid .lock mutexAddr,
      fun ts => .makeSyncOpEvent inst ts tid .awake condAddr]

namespace Logger

/-! ### The discipline -/

/-- An event, when `missing` events of a batch are missing; the outer `none` is a failure. -/
def eventStep : Option ℕ → Option (Option ℕ)
  | none => some none
  | some 0 => none
  | some (k + 1) => some (some k)

/-- A call, when `missing` events of a batch are missing; the outer `none` is a failure. -/
def batchStep (isOnStack : Addr → Bool) (missing : Option ℕ) : LogCall → Option (Option ℕ)
  | .startBatch nr => if missing = none then some (some nr) else none
  | .startBatchFor addrs =>
    if missing = none then
      if nrValidAddr isOnStack addrs > 1 then some (some (nrValidAddr isOnStack addrs)) else some none
    else none
  | .endBatch => if missing = none ∨ missing = some 0 then some none else none
  | .logVarAccessEvent _ addr | .logArrayAccessEvent _ addr _ =>
    if isOnStack addr then some missing else eventStep missing
  | .logSyncOpEvent _ _ | .logThreadJoinEvent _ => eventStep missing
  | .logThreadCreateEvent _ => if missing = none then none else eventStep missing
  | .logCondWaitEvent _ _ | .logCondAwakeEvent _ _ => if missing = none then some none else none

/-! ### A thread's own variables -/

/-- What a thread's variables satisfy at all times. -/
structure Ok (l : LogLocal) : Prop where
  /-- The three batch variables are set and cleared together. -/
  batch : inBatch l = false → noBatch l = true
  /-- No event too many. -/
  pos_le : inBatch l = true → l.batchPos ≤ l.batchSz
  /-- An event is stored where its timestamp says. -/
  stamp : ∀ x ∈ l.pend, x.2.timestamp = x.1
  /-- Into different slots. -/
  nodup : (l.pend.map Prod.fst).Nodup
  /-- And in a batch into one that has been handed out. -/
  handed : ∀ x ∈ l.pend, inBatch l = true → x.1 < l.batchId + l.batchPos
  /-- The slots handed out are consecutive. -/
  drawn : ∃ n k, l.drawn = List.range' n k
  /-- In a batch they are those of the batch. -/
  drawn_batch : inBatch l = true → l.drawn = List.range' l.batchId l.batchPos
  /-- The stores go to them. -/
  pend_drawn : ∀ x ∈ l.pend, x.1 ∈ l.drawn

theorem ok_initLocal : Ok initLocal where
  batch := by decide
  pos_le := fun h => by cases h
  stamp := fun x h => by cases h
  nodup := List.nodup_nil
  handed := fun x h => by cases h
  drawn := ⟨0, 0, rfl⟩
  drawn_batch := fun h => by cases h
  pend_drawn := fun x h => by cases h

theorem held_initLocal : initLocal.held = ∅ := by
  ext n
  simp [LogLocal.held, initLocal, inBatch]

variable {st st' : LogState} {l l' : LogLocal}

theorem missing_eq_none : l.missing = none ↔ inBatch l = false := by
  unfold LogLocal.missing
  cases inBatch l <;> simp

/-- A thread that is in no batch and stores nothing holds no slot. -/
theorem held_eq_empty (hpend : l.pend = []) (hb : l.missing = none) : l.held = ∅ := by
  ext n
  simp [LogLocal.held, hpend, missing_eq_none.mp hb]

/-- A batch that is done holds no slot. -/
theorem held_of_missing_zero (hok : Ok l) (hpend : l.pend = []) (hb : l.missing = some 0) :
    l.held = ∅ := by
  ext n
  unfold LogLocal.missing at hb
  split_ifs at hb with hin
  have hle := hok.pos_le hin
  have hsub := Option.some.inj hb
  simp only [LogLocal.held, hpend, Set.mem_ofPred_eq, List.map_nil, List.not_mem_nil, false_or,
    Set.mem_empty_iff_false, iff_false, not_and]
  omega

/-! ### What a call does -/

/-- The outcome of a call: the size has moved on by `k`, nothing has failed, and the thread holds the `k`
new slots too. -/
structure Took (st : LogState) (l : LogLocal) (r : Option ℕ) (k : ℕ) (st' : LogState) (l' : LogLocal) :
    Prop where
  log : st' = fetchAdd k st
  ok : Ok l'
  missing : l'.missing = r
  held : ∀ n, n ∈ l'.held ↔ n ∈ l.held ∨ st.logSz ≤ n ∧ n < st.logSz + k

/-- No slot is new. -/
theorem mem_iff_or_none {held : Set ℕ} {size n : ℕ} : n ∈ held ↔ n ∈ held ∨ size ≤ n ∧ n < size + 0 := by
  constructor
  · exact Or.inl
  · intro h
    rcases h with h | h
    · exact h
    · omega

/-- Nothing has happened. -/
theorem Took.still {r : Option ℕ} (hok : Ok l) (hr : l.missing = r) : Took st l r 0 st l where
  log := rfl
  ok := hok
  missing := hr
  held := fun _ => mem_iff_or_none

/-- The size never shrinks. -/
theorem logSz_le_exec (cfg : LogConfig) (isOnStack : Addr → Bool) (inst tid : ℕ) (st : LogState)
    (l : LogLocal) (lc : LogCall) : st.logSz ≤ (exec cfg isOnStack inst tid st l lc).1.logSz := by
  have hevent : ∀ mk, st.logSz ≤ (logEvent mk st l).1.logSz := by
    intro mk
    unfold logEvent
    dsimp only
    split_ifs <;> simp [fetchAdd, abort]
  have hpair : ∀ mk mk', st.logSz ≤ (logPair mk mk' st l).1.logSz := by
    intro mk mk'
    unfold logPair
    dsimp only
    split_ifs <;> simp [fetchAdd, abort]
  cases lc with
  | startBatch nr =>
    simp only [exec, startBatch]
    split_ifs <;> simp [openBatch, fetchAdd, abort]
  | startBatchFor addrs =>
    simp only [exec, startBatchFor]
    split_ifs <;> simp [openBatch, fetchAdd, abort]
  | endBatch =>
    simp only [exec, endBatch]
    split_ifs <;> simp [abort]
  | logThreadCreateEvent =>
    simp only [exec]
    split_ifs <;> first | exact hevent _ | exact le_refl st.logSz
  | logVarAccessEvent | logArrayAccessEvent | logSyncOpEvent | logThreadJoinEvent =>
    simp only [exec]
    split_ifs <;> first | exact hevent _ | exact le_refl st.logSz
  | logCondWaitEvent | logCondAwakeEvent =>
    simp only [exec]
    split_ifs <;> first | exact hpair _ _ | exact le_refl st.logSz

/-- A call stores nothing. -/
theorem exec_events (cfg : LogConfig) (isOnStack : Addr → Bool) (inst tid : ℕ) (st : LogState)
    (l : LogLocal) (lc : LogCall) : (exec cfg isOnStack inst tid st l lc).1.events = st.events := by
  have hevent : ∀ mk, (logEvent mk st l).1.events = st.events := by
    intro mk
    unfold logEvent
    dsimp only
    split_ifs <;> rfl
  have hpair : ∀ mk mk', (logPair mk mk' st l).1.events = st.events := by
    intro mk mk'
    unfold logPair
    dsimp only
    split_ifs <;> rfl
  cases lc with
  | startBatch nr =>
    simp only [exec, startBatch]
    split_ifs <;> rfl
  | startBatchFor addrs =>
    simp only [exec, startBatchFor]
    split_ifs <;> rfl
  | endBatch =>
    simp only [exec, endBatch]
    split_ifs <;> rfl
  | logThreadCreateEvent | logVarAccessEvent | logArrayAccessEvent | logSyncOpEvent | logThreadJoinEvent =>
    simp only [exec]
    split_ifs <;> first | exact hevent _ | rfl
  | logCondWaitEvent | logCondAwakeEvent =>
    simp only [exec]
    split_ifs <;> first | exact hpair _ _ | rfl

theorem openBatch_spec {nr : ℕ} (hpend : l.pend = []) (hb : l.missing = none)
    (hsz : st.logSz < MAX_NUMBER) :
    Took st l (some nr) nr (openBatch nr st l).1 (openBatch nr st l).2 := by
  have hin : inBatch (openBatch nr st l).2 = true := decide_eq_true hsz.ne
  refine ⟨rfl, ⟨fun h => ?_, fun _ => Nat.zero_le _, ?_, ?_, ?_, ⟨0, 0, rfl⟩, fun _ => rfl, ?_⟩, ?_,
    fun n => ?_⟩
  · exact absurd (hin.symm.trans h) (by simp)
  · simp [openBatch, hpend]
  · simp [openBatch, hpend]
  · simp [openBatch, hpend]
  · simp [openBatch, hpend]
  · rw [LogLocal.missing, if_pos hin]
    rfl
  · rw [held_eq_empty hpend hb]
    simp only [LogLocal.held, hin, Set.mem_ofPred_eq, Set.mem_empty_iff_false, false_or, true_and]
    simp [openBatch, hpend]

/-- The `assert` that the log is not full has failed. -/
def Full (st : LogState) : Prop := st.aborted = some .maxNrEvents ∧ MAX_NR_EVENTS < st.logSz

theorem logEvent_spec {mk : ℕ → Event} {r : Option ℕ} (hmk : ∀ ts, (mk ts).timestamp = ts) (hok : Ok l)
    (hpend : l.pend = []) (hstep : eventStep l.missing = some r) (hheld : ∀ n ∈ l.held, n < st.logSz) :
    (∃ k, Took st l r k (logEvent mk st l).1 (logEvent mk st l).2) ∨ Full (logEvent mk st l).1 := by
  cases hb : inBatch l with
  | false =>
    have hmiss := missing_eq_none.mpr hb
    rw [hmiss] at hstep
    obtain rfl := Option.some.inj hstep
    unfold logEvent
    simp only [hb, Bool.false_eq_true, if_false]
    by_cases hlt : st.logSz < MAX_NR_EVENTS
    swap
    · rw [if_neg hlt]
      exact Or.inr ⟨rfl, Nat.lt_succ_of_le (not_lt.mp hlt)⟩
    rw [if_pos hlt]
    refine Or.inl ⟨1, rfl, ⟨hok.batch, hok.pos_le, ?_, ?_, fun x _ h => ?_, ⟨st.logSz, 1, rfl⟩, fun h => ?_, ?_⟩,
      hmiss, fun n => ?_⟩
    · simpa using hmk st.logSz
    · simp
    · exact absurd (hb.symm.trans h) (by simp)
    · exact absurd (hb.symm.trans h) (by simp)
    · simp
    · rw [held_eq_empty hpend hmiss]
      have hb' : inBatch { l with drawn := [st.logSz], pend := [(st.logSz, mk st.logSz)] } = false := hb
      simp only [LogLocal.held, hb', Set.mem_ofPred_eq, List.map_cons, List.map_nil, List.mem_singleton,
        Set.mem_empty_iff_false, false_or, Bool.false_eq_true, false_and, or_false]
      omega
  | true =>
    have hmiss : l.missing = some (l.batchSz - l.batchPos) := by rw [LogLocal.missing, if_pos hb]
    rw [hmiss] at hstep
    have hlt : l.batchPos < l.batchSz := by
      by_contra hge
      rw [Nat.sub_eq_zero_of_le (not_lt.mp hge)] at hstep
      cases hstep
    obtain ⟨k, hk⟩ : ∃ k, l.batchSz - l.batchPos = k + 1 := ⟨l.batchSz - l.batchPos - 1, by omega⟩
    rw [hk] at hstep
    obtain rfl := Option.some.inj hstep
    have hts : l.batchId + l.batchPos < st.logSz := by
      refine hheld _ (Or.inr ⟨hb, le_rfl, ?_⟩)
      omega
    unfold logEvent
    simp only [hb, if_true, hlt]
    by_cases hmax : l.batchId + l.batchPos < MAX_NR_EVENTS
    swap
    · rw [if_neg hmax]
      exact Or.inr ⟨rfl, (not_lt.mp hmax).trans_lt hts⟩
    rw [if_pos hmax]
    refine Or.inl ⟨0, rfl, ⟨fun h => ?_, fun _ => hlt, ?_, ?_, fun x hx _ => ?_, ?_, fun _ => ?_, ?_⟩, ?_,
      fun n => ?_⟩
    · exact absurd (hb.symm.trans h) (by simp)
    · simpa using hmk (l.batchId + l.batchPos)
    · simp
    · obtain rfl := List.mem_singleton.mp hx
      exact Nat.lt_succ_self _
    · refine ⟨l.batchId, l.batchPos + 1, ?_⟩
      rw [hok.drawn_batch hb, List.range'_concat, Nat.one_mul]
    · rw [hok.drawn_batch hb, List.range'_concat, Nat.one_mul]
    · simp
    · unfold LogLocal.missing
      rw [if_pos (by exact hb)]
      exact congrArg some (by dsimp only; omega)
    · have hb' : inBatch { l with
          batchPos := l.batchPos + 1
          drawn := l.drawn ++ [l.batchId + l.batchPos]
          pend := [(l.batchId + l.batchPos, mk (l.batchId + l.batchPos))] } = true := hb
      simp only [LogLocal.held, hb, hb', hpend, Set.mem_ofPred_eq, List.map_cons, List.map_nil,
        List.mem_singleton, List.not_mem_nil, false_or, true_and]
      omega

theorem logPair_spec {mk mk' : ℕ → Event} (hmk : ∀ ts, (mk ts).timestamp = ts)
    (hmk' : ∀ ts, (mk' ts).timestamp = ts) (hok : Ok l) (hpend : l.pend = []) (hb : l.missing = none) :
    (∃ k, Took st l none k (logPair mk mk' st l).1 (logPair mk mk' st l).2) ∨ Full (logPair mk mk' st l).1 := by
  have hin := missing_eq_none.mp hb
  unfold logPair
  dsimp only
  by_cases hlt : st.logSz + 1 < MAX_NR_EVENTS
  swap
  · rw [if_neg hlt]
    exact Or.inr ⟨rfl, Nat.lt_succ_of_le (not_lt.mp hlt)⟩
  rw [if_pos hlt]
  refine Or.inl ⟨2, rfl, ⟨hok.batch, hok.pos_le, ?_, ?_, fun x _ h => ?_, ⟨st.logSz, 2, rfl⟩, fun h => ?_, ?_⟩,
    hb, fun n => ?_⟩
  · simp [hmk, hmk']
  · simp
  · exact absurd (hin.symm.trans h) (by simp)
  · exact absurd (hin.symm.trans h) (by simp)
  · simp
  · rw [held_eq_empty hpend hb]
    have hin' : inBatch { l with
        pend := [(st.logSz, mk st.logSz), (st.logSz + 1, mk' (st.logSz + 1))]
        drawn := [st.logSz, st.logSz + 1] } = false := hin
    simp only [LogLocal.held, hin', Set.mem_ofPred_eq, List.map_cons, List.map_nil, List.mem_cons,
      List.not_mem_nil, Set.mem_empty_iff_false, false_or, Bool.false_eq_true, false_and, or_false]
    omega

/-- The stores that a call leaves are of its events, into the log. -/
theorem exec_pend (cfg : LogConfig) (isOnStack : Addr → Bool) (inst tid : ℕ) (st : LogState) {l : LogLocal}
    (lc : LogCall) (hpend : l.pend = []) :
    ∀ x ∈ (exec cfg isOnStack inst tid st l lc).2.pend,
      x.1 < MAX_NR_EVENTS ∧ ∃ mk ∈ lc.makers inst tid, x.2 = mk x.1 := by
  intro x hx
  have hnone : x ∉ l.pend := by simp [hpend]
  have hevent : ∀ mk, x ∈ (logEvent mk st l).2.pend → x.1 < MAX_NR_EVENTS ∧ x.2 = mk x.1 := by
    intro mk hx
    unfold logEvent at hx
    dsimp only at hx
    split_ifs at hx with hin hlt hmax hmax <;> first
      | exact absurd hx hnone
      | (obtain rfl := List.mem_singleton.mp hx; exact ⟨hmax, rfl⟩)
  have hpair : ∀ mk mk', x ∈ (logPair mk mk' st l).2.pend →
      x.1 < MAX_NR_EVENTS ∧ (x.2 = mk x.1 ∨ x.2 = mk' x.1) := by
    intro mk mk' hx
    unfold logPair at hx
    dsimp only at hx
    split_ifs at hx with hlt
    · simp only [List.mem_cons, List.not_mem_nil, or_false] at hx
      rcases hx with rfl | rfl
      · exact ⟨(Nat.le_succ _).trans_lt hlt, Or.inl rfl⟩
      · exact ⟨hlt, Or.inr rfl⟩
    · exact absurd hx hnone
  cases lc with
  | startBatch nr =>
    simp only [exec, startBatch] at hx
    split_ifs at hx <;> exact absurd hx hnone
  | startBatchFor addrs =>
    simp only [exec, startBatchFor] at hx
    split_ifs at hx <;> exact absurd hx hnone
  | endBatch =>
    simp only [exec, endBatch] at hx
    split_ifs at hx <;> exact absurd hx hnone
  | logVarAccessEvent | logArrayAccessEvent | logSyncOpEvent | logThreadCreateEvent | logThreadJoinEvent =>
    simp only [exec] at hx
    split_ifs at hx <;> first
      | exact (hevent _ hx).imp_right fun h => ⟨_, List.mem_singleton_self _, h⟩
      | exact absurd hx hnone
  | logCondWaitEvent | logCondAwakeEvent =>
    simp only [exec] at hx
    split_ifs at hx
    · obtain ⟨hlt, h | h⟩ := hpair _ _ hx
      · exact ⟨hlt, _, List.mem_cons_self, h⟩
      · exact ⟨hlt, _, List.mem_cons_of_mem _ (List.mem_singleton_self _), h⟩
    · exact absurd hx hnone

/-- **A call** that keeps the discipline. -/
theorem exec_spec {cfg : LogConfig} {isOnStack : Addr → Bool} {lc : LogCall} {r : Option ℕ} (inst tid : ℕ)
    (hen : cfg.enable = true) (hok : Ok l) (hpend : l.pend = [])
    (hstep : batchStep isOnStack l.missing lc = some r) (hheld : ∀ n ∈ l.held, n < st.logSz)
    (hroom : st.logSz < MAX_NUMBER) :
    (∃ k, Took st l r k (exec cfg isOnStack inst tid st l lc).1 (exec cfg isOnStack inst tid st l lc).2) ∨
      Full (exec cfg isOnStack inst tid st l lc).1 := by
  cases lc with
  | startBatch nr =>
    simp only [batchStep] at hstep
    split_ifs at hstep with hb
    obtain rfl := Option.some.inj hstep
    have hno := hok.batch (missing_eq_none.mp hb)
    simp only [exec, startBatch, hen, hno, not_true_eq_false, if_false, if_true]
    exact Or.inl ⟨nr, openBatch_spec hpend hb hroom⟩
  | startBatchFor addrs =>
    simp only [batchStep] at hstep
    split_ifs at hstep with hb hnr
    · obtain rfl := Option.some.inj hstep
      have hno := hok.batch (missing_eq_none.mp hb)
      simp only [exec, startBatchFor, hen, hno, hnr, not_true_eq_false, if_false, if_true]
      exact Or.inl ⟨_, openBatch_spec hpend hb hroom⟩
    · obtain rfl := Option.some.inj hstep
      have hno := hok.batch (missing_eq_none.mp hb)
      simp only [exec, startBatchFor, hen, hno, hnr, not_true_eq_false, if_false, if_true]
      refine Or.inl ⟨0, rfl, ⟨hok.batch, hok.pos_le, hok.stamp, hok.nodup, hok.handed, ⟨0, 0, rfl⟩, fun h => ?_,
        fun x hx => ?_⟩, hb, fun _ => mem_iff_or_none⟩
      · exact absurd ((missing_eq_none.mp hb).symm.trans h) (by simp)
      · rw [hpend] at hx
        cases hx
  | endBatch =>
    simp only [batchStep] at hstep
    split_ifs at hstep with hb
    obtain rfl := Option.some.inj hstep
    have heq : l.batchPos = l.batchSz ∧ l.held = ∅ := by
      rcases hb with hb | hb
      · have hno := hok.batch (missing_eq_none.mp hb)
        simp only [noBatch, Bool.and_eq_true, decide_eq_true_eq] at hno
        exact ⟨hno.1.2.trans hno.2.symm, held_eq_empty hpend hb⟩
      · refine ⟨?_, held_of_missing_zero hok hpend hb⟩
        unfold LogLocal.missing at hb
        split_ifs at hb with hin
        have hle := hok.pos_le hin
        have hsub := Option.some.inj hb
        omega
    simp only [exec, endBatch, hen, heq.1, not_true_eq_false, if_false, if_true]
    have hin : inBatch { l with batchId := MAX_NUMBER, batchPos := MAX_NUMBER, batchSz := MAX_NUMBER } =
        false := by simp [inBatch]
    refine Or.inl ⟨0, rfl, ⟨fun _ => by simp [noBatch], fun h => ?_, hok.stamp, hok.nodup, fun x _ h => ?_,
      hok.drawn, fun h => ?_, hok.pend_drawn⟩, missing_eq_none.mpr hin, fun n => ?_⟩
    · exact absurd (hin.symm.trans h) (by simp)
    · exact absurd (hin.symm.trans h) (by simp)
    · exact absurd (hin.symm.trans h) (by simp)
    · rw [heq.2, held_eq_empty (by exact hpend) (missing_eq_none.mpr hin)]
      exact mem_iff_or_none
  | logVarAccessEvent | logArrayAccessEvent =>
    simp only [batchStep] at hstep
    simp only [exec, hen, not_true_eq_false, false_or]
    split_ifs at hstep ⊢ with hs
    · obtain rfl := Option.some.inj hstep
      exact Or.inl ⟨0, .still hok rfl⟩
    · exact logEvent_spec (fun _ => rfl) hok hpend hstep hheld
  | logSyncOpEvent | logThreadJoinEvent =>
    simp only [exec, hen, not_true_eq_false, if_false]
    exact logEvent_spec (fun _ => rfl) hok hpend hstep hheld
  | logThreadCreateEvent u =>
    simp only [batchStep] at hstep
    split_ifs at hstep with hb
    have hin : inBatch l = true := by
      cases hin : inBatch l with
      | false => exact absurd (missing_eq_none.mpr hin) hb
      | true => rfl
    simp only [exec, hen, hin, not_true_eq_false, if_false, if_true]
    exact logEvent_spec (fun _ => rfl) hok hpend hstep hheld
  | logCondWaitEvent | logCondAwakeEvent =>
    simp only [batchStep] at hstep
    split_ifs at hstep with hb
    obtain rfl := Option.some.inj hstep
    simp only [exec, hen, not_true_eq_false, if_false]
    exact logPair_spec (fun _ => rfl) (fun _ => rfl) hok hpend hb

/-- While the log has room. -/
theorem took_of_room {cfg : LogConfig} {isOnStack : Addr → Bool} {lc : LogCall} {r : Option ℕ} (inst tid : ℕ)
    (hen : cfg.enable = true) (hok : Ok l) (hpend : l.pend = [])
    (hstep : batchStep isOnStack l.missing lc = some r) (hheld : ∀ n ∈ l.held, n < st.logSz)
    (hsz : (exec cfg isOnStack inst tid st l lc).1.logSz ≤ MAX_NR_EVENTS) :
    ∃ k, Took st l r k (exec cfg isOnStack inst tid st l lc).1 (exec cfg isOnStack inst tid st l lc).2 := by
  have hroom : st.logSz < MAX_NUMBER :=
    ((logSz_le_exec cfg isOnStack inst tid st l lc).trans hsz).trans_lt (by decide)
  rcases exec_spec inst tid hen hok hpend hstep hheld hroom with htook | ⟨-, hfull⟩
  · exact htook
  · omega

/-- A store fails no `assert`, and leaves the size. -/
theorem store_aborted (h : store st l = some (st', l')) : st'.aborted = st.aborted := by
  unfold store at h
  split at h
  · cases h
  · cases h
    rfl

theorem store_logSz (h : store st l = some (st', l')) : st'.logSz = st.logSz := by
  unfold store at h
  split at h
  · cases h
  · cases h
    rfl

/-- What a store does. -/
theorem store_eq (h : store st l = some (st', l')) : ∃ n e pend, l.pend = (n, e) :: pend ∧
    st'.events = Function.update st.events n (some e) ∧ l' = { l with pend } := by
  unfold store at h
  split at h
  · cases h
  next ts e pend hp =>
    cases h
    exact ⟨_, _, _, hp, rfl, rfl⟩

/-- **A store** fills the first slot of `pend`. -/
theorem store_spec (hok : Ok l) (h : store st l = some (st', l')) :
    ∃ n e, e.timestamp = n ∧ n ∈ l.held ∧ st' = { st with events := Function.update st.events n (some e) } ∧
      Ok l' ∧ l'.missing = l.missing ∧ ∀ m, m ∈ l'.held ↔ m ∈ l.held ∧ m ≠ n := by
  unfold store at h
  cases hp : l.pend with
  | nil => simp [hp] at h
  | cons x pend =>
    obtain ⟨n, e⟩ := x
    simp only [hp, Option.some.injEq, Prod.mk.injEq] at h
    obtain ⟨rfl, rfl⟩ := h
    have hnd := hok.nodup
    rw [hp, List.map_cons, List.nodup_cons] at hnd
    have hsub : ∀ {x}, x ∈ pend → x ∈ l.pend := fun hx => hp ▸ List.mem_cons_of_mem _ hx
    refine ⟨n, e, hok.stamp (n, e) (by simp [hp]), Or.inl (by simp [hp]), rfl,
      ⟨hok.batch, hok.pos_le, fun x hx => hok.stamp x (hsub hx), hnd.2,
        fun x hx => hok.handed x (hsub hx), hok.drawn, hok.drawn_batch,
        fun x hx => hok.pend_drawn x (hsub hx)⟩, rfl, fun m => ?_⟩
    have hin : inBatch { l with pend } = inBatch l := rfl
    simp only [LogLocal.held, hin, hp, Set.mem_ofPred_eq, List.map_cons, List.mem_cons]
    constructor
    · intro hm
      rcases hm with hm | ⟨hb, hlo, hhi⟩
      · refine ⟨Or.inl (Or.inr hm), ?_⟩
        intro heq
        exact hnd.1 (heq ▸ hm)
      · refine ⟨Or.inr ⟨hb, hlo, hhi⟩, ?_⟩
        have := hok.handed (n, e) (by simp [hp]) hb
        dsimp only at this
        omega
    · rintro ⟨(rfl | hm) | hm, hne⟩
      · exact absurd rfl hne
      · exact Or.inl hm
      · exact Or.inr hm

end Logger

/-! ### All threads -/

open Logger

universe u

variable {W : Type u} {st st' : LogState} {loc loc' : W → LogLocal} {w : W}

/-- The log and the threads fit together. -/
structure Slots (st : LogState) (loc : W → LogLocal) : Prop where
  /-- Each slot below the size is filled, or one thread has reserved it. -/
  part : SlotLog.Partition st.logSz (fun n => ∃ e, st.events n = some e) fun w => (loc w).held
  /-- An event is where its timestamp says. -/
  stamp : ∀ n e, st.events n = some e → e.timestamp = n
  /-- Each thread's variables are in order. -/
  ok : ∀ w, Ok (loc w)

/-- The empty log. -/
theorem Slots.init : Slots Logger.init fun _ : W => initLocal where
  part := .empty (fun n ⟨e, he⟩ => by cases he) fun _ => held_initLocal
  stamp := fun n e he => by cases he
  ok := fun _ => ok_initLocal

/-- A call of one thread. -/
theorem Slots.took {r : Option ℕ} {k : ℕ} (h : Slots st loc) (ht : Took st (loc w) r k st' (loc' w))
    (hother : ∀ v, v ≠ w → loc' v = loc v) : Slots st' loc' := by
  obtain ⟨rfl, hok, -, hheld⟩ := ht
  refine ⟨h.part.reserve hheld fun v hv => congrArg LogLocal.held (hother v hv), h.stamp, fun v => ?_⟩
  by_cases hv : v = w
  · rw [hv]
    exact hok
  · rw [hother v hv]
    exact h.ok v

/-- A store of one thread; nothing that is filled is overwritten. -/
theorem Slots.store (h : Slots st loc) (loc' : W → LogLocal) (hs : Logger.store st (loc w) = some (st', loc' w))
    (hother : ∀ v, v ≠ w → loc' v = loc v) :
    Slots st' loc' ∧ (loc' w).missing = (loc w).missing ∧
      ∀ n e, st.events n = some e → st'.events n = some e := by
  obtain ⟨n, e, hstamp, hn, rfl, hok, hmiss, hheld⟩ := store_spec (h.ok w) hs
  refine ⟨⟨h.part.fill hn (fun m => ?_) hheld fun v hv => congrArg LogLocal.held (hother v hv),
    fun m e' he' => ?_, fun v => ?_⟩, hmiss, fun m e' he' => ?_⟩
  · by_cases hm : m = n
    · simp [hm]
    · simp [hm, Function.update_of_ne]
  · by_cases hm : m = n
    · subst hm
      obtain rfl : e = e' := by simpa using he'
      exact hstamp
    · exact h.stamp m e' (by simpa [Function.update_of_ne hm] using he')
  · by_cases hv : v = w
    · rw [hv]
      exact hok
    · rw [hother v hv]
      exact h.ok v
  · have hm : m ≠ n := by
      intro hm
      exact h.part.not_filled w n hn ⟨e', hm ▸ he'⟩
    simpa [Function.update_of_ne hm] using he'

/-- Nothing has changed for the log. -/
theorem Slots.congr (h : Slots st loc) (heq : ∀ w, loc' w = loc w) : Slots st loc' := by
  have : loc' = loc := funext heq
  rwa [this]

end Schnauzer
