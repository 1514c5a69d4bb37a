import Schnauzer.Core.Loadable

/-!
# What is stored in the slots

A call for what synchronises hands out the events of the slots that it reserves, and the thread stores them before it does
anything else.

## What is proved

* `Contents.step` — the events of the slots that were reserved for what synchronises.
* `stored_of_done` — a thread that has gone on has stored its event.
-/

namespace Schnauzer

/-- The calls that log two events. -/
def LogCall.isPair : LogCall → Bool
  | .logCondWaitEvent _ _ | .logCondAwakeEvent _ _ => true
  | _ => false

namespace Logger

/-- **The slots of a reservation** for what synchronises. -/
theorem Form.sync {inst t : ℕ} {lc : LogCall} {st st' : LogState}
    {l l' : LogLocal} (h : Form inst t lc st l st' l')
    (hlc : lc.isSync) (hlt : st.logSz < st'.logSz) :
    (lc ≠ .startBatch 1 → ∃ e, (st.logSz, e) ∈ l'.pend) ∧ (lc.isPair → st.logSz + 1 < st'.logSz) ∧
      ∀ x ∈ l'.pend, x ∈ l.pend ∨ st.logSz ≤ x.1 := by
  cases h with
  | event mk hmk hno =>
    refine ⟨fun _ => ⟨_, List.mem_singleton_self _⟩, fun hp => ?_, fun x hx => Or.inr ?_⟩
    · cases lc with
      | logCondWaitEvent | logCondAwakeEvent => cases hmk
      | _ => cases hp
    · rw [List.mem_singleton.mp hx]
  | pair mk mk' hmk =>
    refine ⟨fun _ => ⟨_, List.mem_cons_self⟩, fun _ => Nat.lt_succ_self _, fun x hx => Or.inr ?_⟩
    rcases List.mem_cons.mp hx with rfl | hx
    · exact le_rfl
    · rw [List.mem_singleton.mp hx]
      exact Nat.le_succ _
  | batch nr hnr =>
    rcases hnr with rfl | ⟨addrs, rfl⟩
    · have hone : nr = 1 := of_decide_eq_true hlc
      subst hone
      exact ⟨fun hne => absurd rfl hne, fun hp => absurd hp Bool.false_ne_true, fun x hx => Or.inl hx⟩
    · cases hlc
  | batched => exact absurd hlt (lt_irrefl _)
  | still => exact absurd hlt (lt_irrefl _)

end Logger

namespace Interface

open Logger Runs

variable {cfg : Config} {s s' : State} {a : Action} {n t : ℕ} {e : Event} {call : Call} {lc : LogCall}

/-- What synchronises is logged by its calls. -/
theorem isSync_of_loggedAs {d : ℕ} (hop : e.isSyncOpEvent) (h : e.LoggedAs lc d) : lc.isSync := by
  unfold Event.LoggedAs at h
  cases hty : e.opTy with
  | trylock | signal | broadcast =>
    rw [hty] at h
    rw [h.1]
    rfl
  | lock | unlock =>
    rw [hty] at h
    rcases h.1 with rfl | ⟨c, rfl⟩ <;> rfl
  | wait | awake =>
    rw [hty] at h
    obtain ⟨⟨m, rfl⟩, -⟩ := h
    rfl
  | _ => simp [Event.isSyncOpEvent, hty] at hop

/-- The labels that pass knowledge to a mutex or to the threads that are woken. -/
def Act.isRelease : Act → Bool
  | .release _ | .signal _ _ => true
  | _ => false

/-- **An event stays**: it is stored where it was to be stored. -/
theorem evt_mono (hstep : Stepped cfg s a s') (h : s.Evt n e) : ∃ e', s'.Evt n e' := by
  rcases log_of_step hstep with hq | ⟨t, call, lc, next, l, rfl, hpend, -, hex, -, hother, -⟩ |
    ⟨t, l, rfl, hst, hl, hother, -⟩
  · refine ⟨e, h.imp ?_ ?_⟩
    · rw [hq.events]
      exact id
    · rintro ⟨u, hu⟩
      exact ⟨u, by rwa [hq.loc]⟩
  · refine ⟨e, h.imp (fun h => ?_) ?_⟩
    · have hev := exec_events cfg.log call.isOnStack call.inst t s.log (s.thr t).log lc
      rw [hex] at hev
      rwa [hev]
    · rintro ⟨u, hu⟩
      refine ⟨u, ?_⟩
      rw [hother u ?_]
      · exact hu
      · rintro rfl
        rw [hpend] at hu
        cases hu
  · obtain ⟨m, f, pend, hp, hev, rfl⟩ := store_eq hst
    have hstored : s'.log.events m = some f := by rw [hev, Function.update_self]
    by_cases hn : n = m
    · exact ⟨f, Or.inl (by rw [hn, hstored])⟩
    · refine ⟨e, h.imp (fun h => ?_) ?_⟩
      · rw [hev, Function.update_of_ne hn, h]
      · rintro ⟨u, hu⟩
        refine ⟨u, ?_⟩
        by_cases hut : u = t
        · subst hut
          rw [hp] at hu
          rw [hl]
          exact (List.mem_cons.mp hu).resolve_left fun heq => hn (Prod.mk.inj heq).1
        · rwa [hother u hut]

/-- The slots that are reserved for what synchronises. -/
structure Contents (s : State) : Prop where
  /-- An event is made for the first of them. -/
  made : ∀ p t lc f, s.At p t (.log lc f) → lc.isSync → lc ≠ .startBatch 1 → ∃ e, s.Evt f e
  /-- A thread that is about to store its event has done nothing since. -/
  last : ∀ t n e, (n, e) ∈ (s.thr t).log.pend → e.isSyncOpEvent → e.tid = t ∧ s.Last t (s.place n)
  /-- The second of two. -/
  pair : ∀ p t lc f, s.At p t (.log lc f) → lc.isPair → f + 1 < s.log.logSz ∧ s.place (f + 1) = p

theorem Contents.init : Contents init where
  made := fun p t lc f h => by cases h
  last := fun t n e h => by cases h
  pair := fun p t lc f h => by cases h

section Step

variable (h : Contents s) (hinv : RunInv cfg s) (hen : cfg.log.enable = true) (hstep : Stepped cfg s a s')
  (hab : s'.log.aborted = none)

/-- A label of a reservation that is new. -/
theorem reserved_form (hen : cfg.log.enable = true) (hstep : Stepped cfg s a s') (hab : s'.log.aborted = none) {f : ℕ}
    (hhist : s'.hist = s.hist ++ [⟨t, .log lc f⟩]) : f = s.log.logSz ∧ s.log.logSz < s'.log.logSz ∧
      ∃ inst, Form inst t lc s.log (s.thr t).log s'.log (s'.thr t).log := by
  have hrec := recorded_of_step hstep
  obtain ⟨rfl, rfl, hsz, -, call, next, hpc, -⟩ := hrec.reserved hhist
  refine ⟨rfl, hsz, call.inst, ?_⟩
  rcases log_of_step hstep with hq | ⟨u, call', lc', next', l, rfl, -, hpc', hex, hl, -⟩ | ⟨u, l, rfl, hst, -⟩
  · exact absurd hq.size hsz.ne'
  · cases hpc.symm.trans hpc'
    simp only [Action.thread]
    rw [hl]
    exact form_of_exec hen hab hex
  · exact absurd (store_logSz hst) hsz.ne'

include h hen hstep hab in
theorem Contents.made_step {p f : ℕ} (hat : s'.At p t (.log lc f)) (hlc : lc.isSync) (hne : lc ≠ .startBatch 1) :
    ∃ e, s'.Evt f e := by
  have hrec := recorded_of_step hstep
  rcases hrec.at hat with hat | ⟨-, -, -, hhist⟩
  · obtain ⟨e, he⟩ := h.made p t lc f hat hlc hne
    exact evt_mono hstep he
  · obtain ⟨rfl, hsz, inst, hform⟩ := reserved_form hen hstep hab hhist
    obtain ⟨e, he⟩ := (hform.sync hlc hsz).1 hne
    exact ⟨e, Or.inr ⟨t, he⟩⟩

include h hen hstep hab in
theorem Contents.pair_step {p f : ℕ} (hat : s'.At p t (.log lc f)) (hlc : lc.isPair) :
    f + 1 < s'.log.logSz ∧ s'.place (f + 1) = p := by
  have hrec := recorded_of_step hstep
  rcases hrec.at hat with hat | ⟨rfl, -, -, hhist⟩
  · obtain ⟨hlt, hp⟩ := h.pair p t lc f hat hlc
    exact ⟨hlt.trans_le hrec.logSz_le, by rw [hrec.place_eq hlt, hp]⟩
  · obtain ⟨rfl, hsz, inst, hform⟩ := reserved_form hen hstep hab hhist
    have hsync : lc.isSync := by
      cases lc with
      | logCondWaitEvent | logCondAwakeEvent => rfl
      | _ => cases hlc
    exact ⟨(hform.sync hsync hsz).2.1 hlc, hrec.place_new hsz (Nat.le_succ _)⟩

include h hinv hen hstep hab in
theorem Contents.last_step (hmem : (n, e) ∈ (s'.thr t).log.pend) (hop : e.isSyncOpEvent) :
    e.tid = t ∧ s'.Last t (s'.place n) := by
  have hrec := recorded_of_step hstep
  -- a thread with events to store is in a hook
  have hhook : (s.thr t).log.pend ≠ [] → (s.thr t).pc.hooked := by
    intro hne
    have hp := hinv.log.place t
    cases hpc : (s.thr t).pc with
    | before | after => rfl
    | _ =>
      rw [hpc] at hp
      exact absurd hp.1 hne
  have hold : (n, e) ∈ (s.thr t).log.pend → Keeps s s' t → e.tid = t ∧ s'.Last t (s'.place n) := by
    intro hmem hkeep
    obtain ⟨htid, hlast⟩ := h.last t n e hmem hop
    rw [hkeep.place n (hinv.events n e (Or.inr ⟨t, hmem⟩)).1]
    exact ⟨htid, hkeep.last hlast⟩
  by_cases ht : t = a.thread
  swap
  · have hlog : (s'.thr t).log = (s.thr t).log := by
      rcases thr_of_ne hstep ht with heq | ⟨-, -, -, heq⟩ | ⟨call, depth, i, -, heq⟩ <;> rw [heq]
    rw [hlog] at hmem
    have hhook := hhook (List.ne_nil_of_mem hmem)
    refine hold hmem (keeps_other hinv.log.start hstep hrec (hinv.phase _) ht ?_)
    cases hpc : (s.thr t).pc with
    | before | after => exact Option.some_ne_none _
    | _ =>
      rw [hpc] at hhook
      cases hhook
  subst ht
  rcases log_of_step hstep with hq | ⟨t, call, lc, next, l, rfl, hpend, hpc, hex, hl, -, -⟩ |
    ⟨t, l, rfl, hst, hl, -, -⟩
  · rw [hq.loc] at hmem
    exact hold hmem (keeps_of_hooked hstep (hhook (List.ne_nil_of_mem hmem)) hq.size _)
  · subst hl
    have hnew := logged_of_pend hpend hpc hex hmem
    obtain ⟨d, hd⟩ := (hnew.loggedAs hinv.shape).resolve_right fun hcreate => by
      simp [Event.isSyncOpEvent, hcreate] at hop
    have hlc := isSync_of_loggedAs hop hd
    have hsz := hinv.log.lt_of_isSync hen hinv.shape hpc hlc hab hex
    have hn : s.log.logSz ≤ n := by
      refine (((form_of_exec hen hab hex).sync hlc hsz).2.2 _ hmem).resolve_left fun hmem' => ?_
      rw [hpend] at hmem'
      cases hmem'
    obtain ⟨mk, hmk, rfl⟩ := hnew.maker
    refine ⟨tid_of_maker hmk, ?_⟩
    rw [hrec.place_new hsz hn]
    exact last_length (hrec.of_lt hsz hpc).1
  · obtain ⟨m, f, pend, hp, -, rfl⟩ := store_eq hst
    simp only [Action.thread] at hmem hhook hold ⊢
    rw [hl] at hmem
    have hmem' : (n, e) ∈ (s.thr t).log.pend := by
      rw [hp]
      exact List.mem_cons_of_mem _ hmem
    exact hold hmem' (keeps_of_hooked hstep (hhook (List.ne_nil_of_mem hmem')) (store_logSz hst) _)

include h hinv hen hstep hab in
/-- **One step.** -/
theorem Contents.step : Contents s' where
  made := fun _ _ _ _ hat hlc hne => h.made_step hen hstep hab hat hlc hne
  last := fun _ _ _ hmem hop => h.last_step hinv hen hstep hab hmem hop
  pair := fun _ _ _ _ hat hlc => h.pair_step hen hstep hab hat hlc

end Step

/-- The event of a call for what synchronises, other than a `CREATE` or a `JOIN`. -/
theorem isSyncOp_of_loggedAs {d : ℕ} (hlc : lc.isSync) (hne : lc ≠ .startBatch 1)
    (hjoin : ∀ c, lc ≠ .logThreadJoinEvent c) (h : e.LoggedAs lc d) : e.isSyncOpEvent := by
  unfold Event.LoggedAs at h
  cases hop : e.opTy with
  | create =>
    rw [hop] at h
    exact absurd h.1 hne
  | join =>
    rw [hop] at h
    exact absurd h.1 (hjoin _)
  | ld | st =>
    rw [hop] at h
    exact absurd (hlc.symm.trans (not_isSync_of_access (Or.inl h))) (by simp)
  | call | other =>
    rw [hop] at h
    exact h.elim
  | _ => simp [Event.isSyncOpEvent, hop]

/-- **A thread that has gone on** has stored its event. -/
theorem stored_of_done (h : Contents s) (hinv : RunInv cfg s) {f k : ℕ} {act : Act} (hlc : lc.isSync)
    (hne : lc ≠ .startBatch 1) (hjoin : ∀ c, lc ≠ .logThreadJoinEvent c)
    (hat : s.At (s.place f) t (.log lc f)) (hk : s.At k t act) (hlt : s.place f < k) :
    ∃ e, s.log.events f = some e ∧ e.tid = t ∧ e.LoggedAs lc 0 := by
  obtain ⟨e, he⟩ := h.made _ t lc f hat hlc hne
  obtain ⟨-, ⟨lc', f', hf', hat', hlog⟩, -⟩ := hinv.events f e he
  obtain ⟨htid, heq⟩ := hat'.unique hat
  cases heq
  rw [Nat.sub_self] at hlog
  rcases he with he | ⟨u, hu⟩
  · exact ⟨e, he, htid, hlog⟩
  · obtain ⟨rfl, hlast⟩ := h.last u f e hu (isSyncOp_of_loggedAs hlc hne hjoin hlog)
    exact absurd (hlast k t act hk (Or.inl htid.symm)) (not_le.mpr hlt)

/-- A release and a signal are stored before they are done. -/
theorem stored_of_release (h : Contents s) (hinv : RunInv cfg s) {f k : ℕ} {act act' : Act} (hlc : act'.logsBefore lc)
    (hact : act'.isRelease) (hat : s.At (s.place f) t (.log lc f)) (hk : s.At k t act) (hlt : s.place f < k) :
    ∃ e, s.log.events f = some e ∧ e.tid = t ∧ e.LoggedAs lc 0 := by
  cases act' with
  | release m =>
    rcases hlc with rfl | ⟨c, rfl⟩
    · exact stored_of_done h hinv rfl (by simp) (by simp) hat hk hlt
    · exact stored_of_done h hinv rfl (by simp) (by simp) hat hk hlt
  | signal c i =>
    rcases hlc with rfl | rfl
    · exact stored_of_done h hinv rfl (by simp) (by simp) hat hk hlt
    · exact stored_of_done h hinv rfl (by simp) (by simp) hat hk hlt
  | _ => cases hact

end Interface

end Schnauzer
