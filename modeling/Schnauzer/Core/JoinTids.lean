import Schnauzer.Core.AliveTable

/-!
# The tids of created and joined threads

The event of a creation takes the tid of the new thread from its pack, that of a join looks the
`pthread_t` up in `__pthread_id_table`, whose entries stay when threads end and are written anew when
a `pthread_t` is used again.

## What is proved

* `events_name_threads` — in every run with fewer than `MAX_NR_THREAD` creations both are the tid under
  which that thread logs its own events, and the `assert` of `lookupTid` does not fail.
-/

namespace Schnauzer

open Runs

namespace Process

variable {reuseTid : Bool} {s s' : Process} {a : Action} {handle : ℕ} {as : List Action}

/-! ### Tids stay -/

/-- The thread has a tid. -/
def Settled (s : Process) (p : ℕ) : Prop := s.phase p ≠ .absent ∧ s.phase p ≠ .starting

/-- Once it has one it keeps it. -/
theorem settled_step (hs : Stepped reuseTid s a s') (h : Kept reuseTid s) {p : ℕ} (hp : Settled s p) :
    Settled s' p ∧ s'.reg.myTid p = s.reg.myTid p := by
  have hupdate : ∀ {q c}, c ≠ Phase.absent → c ≠ .starting → s'.phase = Function.update s.phase q c →
      Settled s' p := by
    intro q c ha hst hphase
    unfold Settled
    rw [hphase]
    by_cases hq : p = q
    · subst hq
      rw [Function.update_self]
      exact ⟨ha, hst⟩
    · rw [Function.update_of_ne hq]
      exact hp
  cases lives_of_stepped hs h.absent_iff with
  | @create _ q _ _ hq hphase hcreated hreg =>
    have hpq : p ≠ q := by
      rintro rfl
      exact hp.1 ((h.absent_iff p).mpr hq)
    refine ⟨?_, by rw [hreg]⟩
    unfold Settled
    rw [hphase, Function.update_of_ne hpq]
    exact hp
  | @register q hq hphase hcreated hreg =>
    have hpq : p ≠ q := by
      rintro rfl
      exact hp.2 hq
    refine ⟨hupdate (by decide) (by decide) hphase, ?_⟩
    rw [hreg]
    exact Function.update_of_ne hpq ..
  | unregister hq hphase hcreated hreg =>
    refine ⟨hupdate (by decide) (by decide) hphase, ?_⟩
    obtain ⟨tids, -, hfields⟩ := Option.map_eq_some_iff.mp hreg
    rw [← hfields]
  | exit hq hphase hcreated hreg => exact ⟨hupdate (by decide) (by decide) hphase, by rw [hreg]⟩
  | stay ha hphase hcreated hreg =>
    refine ⟨?_, by rw [hreg]⟩
    unfold Settled
    rw [hphase]
    exact hp

/-! ### Room -/

/-- A creation. -/
def Action.creates : Action → Bool
  | .create _ _ _ _ => true
  | _ => false

/-- The threads that have registered are among those created. -/
structure Counted (s : Process) : Prop where
  nodup : s.created.Nodup
  registered : ∃ ps : List ℕ, ps.Nodup ∧ ps.length = s.reg.nrRegistrations ∧ ∀ p ∈ ps, Settled s p

/-- A thread that has not registered can do so. -/
theorem room_of_few (h : Kept reuseTid s) (hc : Counted s) (hfew : s.created.length ≤ MAX_NR_THREAD) {q : ℕ}
    (hq : s.phase q = .starting) : Registry.Room reuseTid s.reg.registered.length s.reg.nrRegistrations := by
  have hmem : ∀ {p}, s.phase p ≠ .absent → p ∈ s.created := fun hp =>
    not_not.mp fun hnot => hp ((h.absent_iff _).mpr hnot)
  -- any list of registered threads is shorter than the list of those created
  have hlt : ∀ ps : List ℕ, ps.Nodup → (∀ p ∈ ps, Settled s p) → ps.length < MAX_NR_THREAD := by
    intro ps hnodup hsettled
    have hnodup' : (q :: ps).Nodup := List.nodup_cons.mpr ⟨fun hm => (hsettled q hm).2 hq, hnodup⟩
    have hsub : q :: ps ⊆ s.created := by
      intro p hp
      rcases List.mem_cons.mp hp with rfl | hp
      · exact hmem (by rw [hq]; decide)
      · exact hmem (hsettled p hp).1
    exact (Nat.lt_of_succ_le (List.subperm_of_subset hnodup' hsub).length_le).trans_le hfew
  unfold Registry.Room
  split_ifs
  · apply hlt _ h.sound.nodup
    intro p hp
    rcases (h.registered_iff p).mp hp with hp | hp <;> exact ⟨by rw [hp]; decide, by rw [hp]; decide⟩
  · obtain ⟨ps, hnodup, hlen, hsettled⟩ := hc.registered
    exact hlen ▸ hlt ps hnodup hsettled

theorem counted_step (hs : Stepped reuseTid s a s') (h : Kept reuseTid s) (hc : Counted s) : Counted s' := by
  obtain ⟨ps, hnodup, hlen, hsettled⟩ := hc.registered
  have hsettled' : ∀ p ∈ ps, Settled s' p := fun p hp => (settled_step hs h (hsettled p hp)).1
  cases lives_of_stepped hs h.absent_iff with
  | create hq hphase hcreated hreg =>
    exact ⟨hcreated ▸ List.nodup_cons.mpr ⟨hq, hc.nodup⟩, ps, hnodup, by rw [hreg, hlen], hsettled'⟩
  | @register q hq hphase hcreated hreg =>
    refine ⟨hcreated ▸ hc.nodup, q :: ps, List.nodup_cons.mpr ⟨fun hm => (hsettled q hm).2 hq, hnodup⟩, ?_, ?_⟩
    · rw [hreg, List.length_cons, hlen]
      rfl
    · intro p hp
      rcases List.mem_cons.mp hp with rfl | hp
      · unfold Settled
        rw [hphase, Function.update_self]
        decide
      · exact hsettled' p hp
  | unregister hq hphase hcreated hreg =>
    obtain ⟨tids, -, hfields⟩ := Option.map_eq_some_iff.mp hreg
    exact ⟨hcreated ▸ hc.nodup, ps, hnodup, by rw [← hfields, hlen], hsettled'⟩
  | exit hq hphase hcreated hreg =>
    exact ⟨hcreated ▸ hc.nodup, ps, hnodup, by rw [hreg, hlen], hsettled'⟩
  | stay ha hphase hcreated hreg =>
    exact ⟨hcreated ▸ hc.nodup, ps, hnodup, by rw [hreg, hlen], hsettled'⟩

/-! ### The `pthread_t` of a thread -/

/-- What becomes of a thread that has been created. -/
structure Goes (th th' : Pthread) : Prop where
  handle : th'.handle = th.handle
  ended : th.pc.over → th'.pc.over
  detached : th.detached → th'.detached
  joined : th.joined → th'.joined

theorem Goes.freed {th th' : Pthread} (h : Goes th th') (hf : th.freed) : th'.freed := by
  simp only [Pthread.freed, Bool.or_eq_true, Bool.and_eq_true] at hf ⊢
  exact hf.imp h.joined (And.imp h.detached h.ended)

theorem Goes.rfl {th : Pthread} : Goes th th := ⟨.refl _, id, id, id⟩

/-- A step of a thread that has not ended. -/
theorem goes_goto {p q : ℕ} {pc : ThreadPc} (hp : (s.thr p).pc.over = false) :
    Goes (s.thr q) ((s.goto p pc).thr q) := by
  refine ⟨goto_handle, fun ho => ?_, fun hd => by rwa [goto_detached], fun hj => by rwa [goto_joined]⟩
  have hqp : q ≠ p := by
    rintro rfl
    rw [hp] at ho
    cases ho
  rwa [goto_thr_of_ne hqp]

theorem goes_upd {p q : ℕ} {f : Pthread → Pthread} (hf : ∀ th, Goes th (f th)) :
    Goes (s.thr q) ((s.upd p f).thr q) := by
  by_cases hqp : q = p
  · subst hqp
    exact upd_thr_self (s := s) ▸ hf _
  · exact upd_thr_of_ne hqp ▸ Goes.rfl

theorem Goes.trans {th th₁ th₂ : Pthread} (h : Goes th th₁) (h' : Goes th₁ th₂) : Goes th th₂ :=
  ⟨h'.handle.trans h.handle, h'.ended ∘ h.ended, h'.detached ∘ h.detached, h'.joined ∘ h.joined⟩

theorem goes_step (hs : Stepped reuseTid s a s') {q : ℕ} (hq : q ∈ s.created) :
    Goes (s.thr q) (s'.thr q) := by
  cases hs with
  | @create p r h det hp hr hfree =>
    have hr' : Goes (s.thr q) ((s.upd r fun _ => newThread h det).thr q) := by
      rw [upd_thr_of_ne (ne_of_mem_of_not_mem hq hr)]
      exact Goes.rfl
    refine hr'.trans (goes_goto ?_)
    by_cases hpr : p = r
    · subst hpr
      rw [upd_thr_self]
      rfl
    · rw [upd_thr_of_ne hpr, hp]
      rfl
  | register hp => exact goes_goto (by rw [hp]; rfl)
  | @store p hp =>
    by_cases hqp : q = p
    · subst hqp
      refine ⟨?_, fun ho => ?_, fun hd => ?_, fun hj => ?_⟩
      · simp
      · rw [hp] at ho
        cases ho
      · simpa using hd
      · simpa using hj
    · exact upd_thr_of_ne hqp ▸ Goes.rfl
  | @announce p r hp hr =>
    have hr' : Goes (s.thr q) ((s.upd r fun th => { th with announced := true }).thr q) :=
      goes_upd fun th => ⟨rfl, id, id, id⟩
    refine hr'.trans (goes_goto ?_)
    rw [upd_field (fun th => th.pc.over) rfl, hp]
    rfl
  | log hp => exact Goes.rfl
  | ret hp hmain => exact goes_goto (by rw [hp]; rfl)
  | unregister hp hreg => exact goes_goto (by rw [hp]; rfl)
  | exit hp => exact goes_goto (by rw [hp]; rfl)
  | detach hp hr hd hj => exact goes_upd fun th => ⟨rfl, id, fun _ => rfl, id⟩
  | lost hp hr hj hl => exact Goes.rfl
  | @join p r hp hr hj =>
    have hr' : Goes (s.thr q) ((s.upd r fun th => { th with joiner := some p }).thr q) :=
      goes_upd fun th => ⟨rfl, id, id, id⟩
    refine hr'.trans (goes_goto ?_)
    rw [upd_field (fun th => th.pc.over) rfl, hp]
    rfl
  | read hp hl => exact goes_goto (by rw [hp]; rfl)
  | @joinReturns p r _ hp hr =>
    have hr' : Goes (s.thr q) ((s.upd r fun th => { th with joined := true }).thr q) :=
      goes_upd fun th => ⟨rfl, id, id, fun _ => rfl⟩
    refine hr'.trans (goes_goto ?_)
    rw [upd_field (fun th => th.pc.over) rfl, hp]
    rfl
  | logJoin hp => exact goes_goto (by rw [hp]; rfl)

/-- A `pthread_t` is one thread's, as long as the library does not give it away. -/
structure Handled (s : Process) : Prop where
  joined_over : ∀ p, (s.thr p).joined → (s.thr p).pc.over
  distinct : ∀ p ∈ s.created, ∀ q ∈ s.created, (s.thr p).freed = false → (s.thr q).freed = false →
    (s.thr p).handle = (s.thr q).handle → p = q
  entry : ∀ p, Settled s p → (s.thr p).freed = false →
    Tid.lookupTid (s.thr p).handle s.reg.tids = some (s.reg.myTid p)

theorem not_freed_of_starting (h : Handled s) {q : ℕ} (hq : s.phase q = .starting) : (s.thr q).freed = false := by
  have hover : (s.thr q).pc.over = false := by
    unfold phase at hq
    simp [ThreadPc.over, hq]
  have hjoined : (s.thr q).joined = false := by
    rw [← Bool.not_eq_true]
    intro hj
    rw [h.joined_over q hj] at hover
    cases hover
  simp [Pthread.freed, hover, hjoined]

theorem over_of_joined_step (hs : Stepped reuseTid s a s') (h : Handled s) {p : ℕ}
    (hj : (s'.thr p).joined) : (s.thr p).pc.over := by
  have hsame : (s'.thr p).joined = (s.thr p).joined → (s.thr p).pc.over := fun he => h.joined_over p (he ▸ hj)
  cases hs with
  | @create r q _ _ hp hq hfree =>
    by_cases hpq : p = q
    · subst hpq
      simp [newThread] at hj
    · exact hsame (by simp [upd_thr_of_ne hpq])
  | @joinReturns r q _ hp hq =>
    by_cases hpq : p = q
    · exact hpq ▸ hq
    · exact hsame (by simp [upd_thr_of_ne hpq])
  | announce | join => exact hsame (goto_joined.trans (upd_field Pthread.joined rfl p))
  | store | detach => exact hsame (upd_field Pthread.joined rfl p)
  | log | lost => exact hsame rfl
  | register | ret | unregister | exit | read | logJoin => exact hsame goto_joined

theorem mem_created_of_over (h : Kept reuseTid s) {p : ℕ} (ho : (s.thr p).pc.over) : p ∈ s.created := by
  by_contra hnot
  have hp : (s.thr p).pc.phase = .absent := (h.absent_iff p).mpr hnot
  simp [ThreadPc.over, hp] at ho

theorem Goes.freed_false {th th' : Pthread} (h : Goes th th') (hf : th'.freed = false) : th.freed = false := by
  rw [← Bool.not_eq_true] at hf ⊢
  exact mt h.freed hf

theorem mem_created_of_settled (h : Kept reuseTid s) {p : ℕ} (hp : Settled s p) : p ∈ s.created := by
  by_contra hnot
  exact hp.1 ((h.absent_iff p).mpr hnot)

/-- A thread that was settled before keeps its entry while the table keeps it. -/
theorem entry_of_lookup (hs : Stepped reuseTid s a s') (hk : Kept reuseTid s) (h : Handled s) {p : ℕ}
    (hp : Settled s p) (hf : (s'.thr p).freed = false)
    (hl : Tid.lookupTid (s.thr p).handle s'.reg.tids = Tid.lookupTid (s.thr p).handle s.reg.tids) :
    Tid.lookupTid (s'.thr p).handle s'.reg.tids = some (s'.reg.myTid p) := by
  have hgoes := goes_step hs (mem_created_of_settled hk hp)
  rw [hgoes.handle, hl, (settled_step hs hk hp).2]
  exact h.entry p hp (hgoes.freed_false hf)

theorem joined_over_step (hs : Stepped reuseTid s a s') (hk : Kept reuseTid s) (h : Handled s) (p : ℕ)
    (hj : (s'.thr p).joined) : (s'.thr p).pc.over := by
  have ho := over_of_joined_step hs h hj
  exact (goes_step hs (mem_created_of_over hk ho)).ended ho

/-- Two threads that were there before. -/
theorem distinct_step (hs : Stepped reuseTid s a s') (h : Handled s) : ∀ p ∈ s.created, ∀ q ∈ s.created,
    (s'.thr p).freed = false → (s'.thr q).freed = false → (s'.thr p).handle = (s'.thr q).handle → p = q := by
  intro p hp q hq hfp hfq he
  have hgp := goes_step hs hp
  have hgq := goes_step hs hq
  rw [hgp.handle, hgq.handle] at he
  exact h.distinct p hp q hq (hgp.freed_false hfp) (hgq.freed_false hfq) he

/-- A thread that has the `pthread_t` of a new one has given it away. -/
theorem handle_ne_of_create {p q hd : ℕ} {det : Bool} (hs : Stepped reuseTid s (.create p q hd det) s') :
    ∀ r ∈ s.created, (s'.thr r).freed = false → (s'.thr r).handle ≠ (s'.thr q).handle := by
  have hnew : (s'.thr q).handle = hd ∧ s.Free hd := by
    cases hs with
    | create hp hq' hfree => exact ⟨by simp [newThread], hfree⟩
  intro r hr hf he
  have hgoes := goes_step hs hr
  have hfreed := hnew.2 r hr (by rw [← hgoes.handle, he, hnew.1])
  rw [hgoes.freed_false hf] at hfreed
  cases hfreed

/-- The entries when a thread registers: its own, and those of the others, which have other handles. -/
theorem entry_register {q : ℕ} (hs : Stepped reuseTid s (.register q) s') (hk : Kept reuseTid s) (h : Handled s)
    (hq : s.phase q = .starting) (hphase : s'.phase = Function.update s.phase q .alive)
    (hreg : s'.reg = s.reg.register reuseTid q (s.thr q).handle) {p : ℕ} (hp : Settled s' p)
    (hf : (s'.thr p).freed = false) : Tid.lookupTid (s'.thr p).handle s'.reg.tids = some (s'.reg.myTid p) := by
  have hqc : q ∈ s.created := by
    by_contra hnot
    rw [(hk.absent_iff q).mpr hnot] at hq
    cases hq
  by_cases hpq : p = q
  · subst hpq
    rw [(goes_step hs hqc).handle, hreg, Registry.lookupTid_register, if_pos rfl]
    have hmy : (s.reg.register reuseTid p (s.thr p).handle).myTid p =
        s.reg.newTid reuseTid p (s.thr p).handle := Function.update_self ..
    rw [hmy]
  · have hps : Settled s p := by simpa [Settled, hphase, Function.update_of_ne hpq] using hp
    apply entry_of_lookup hs hk h hps hf
    have hpc := mem_created_of_settled hk hps
    rw [hreg, Registry.lookupTid_register, if_neg]
    exact fun he => hpq (h.distinct p hpc q hqc ((goes_step hs hpc).freed_false hf) (not_freed_of_starting h hq) he)

theorem handled_step (hs : Stepped reuseTid s a s') (hk : Kept reuseTid s) (h : Handled s) : Handled s' := by
  have hjoined := joined_over_step hs hk h
  have hdistinct := distinct_step hs h
  have hback : ∀ {q c}, s.phase q ≠ .absent → s.phase q ≠ .starting →
      s'.phase = Function.update s.phase q c → ∀ p, Settled s' p → Settled s p := by
    intro q c ha hst hphase p hp
    by_cases hpq : p = q
    · exact hpq ▸ ⟨ha, hst⟩
    · simpa [Settled, hphase, Function.update_of_ne hpq] using hp
  cases lives_of_stepped hs hk.absent_iff with
  | @create p q hd det hq hphase hcreated hreg =>
    have hother := handle_ne_of_create hs
    refine ⟨hjoined, fun p₁ hp₁ p₂ hp₂ hf₁ hf₂ he => ?_, fun r hr hf => ?_⟩
    · rw [hcreated] at hp₁ hp₂
      obtain rfl | hc₁ := List.mem_cons.mp hp₁ <;> obtain rfl | hc₂ := List.mem_cons.mp hp₂
      · rfl
      · exact absurd he.symm (hother p₂ hc₂ hf₂)
      · exact absurd he (hother p₁ hc₁ hf₁)
      · exact hdistinct p₁ hc₁ p₂ hc₂ hf₁ hf₂ he
    · have hrq : r ≠ q := by
        rintro rfl
        simp [Settled, hphase] at hr
      have hrs : Settled s r := by simpa [Settled, hphase, Function.update_of_ne hrq] using hr
      exact entry_of_lookup hs hk h hrs hf (by rw [hreg])
  | register hq hphase hcreated hreg =>
    exact ⟨hjoined, by rwa [hcreated], fun p hp hf => entry_register hs hk h hq hphase hreg hp hf⟩
  | unregister hp hphase hcreated hreg =>
    refine ⟨hjoined, by rwa [hcreated], fun r hr hf => ?_⟩
    have hrs := hback (by rw [hp]; decide) (by rw [hp]; decide) hphase r hr
    exact entry_of_lookup hs hk h hrs hf (Registry.lookupTid_unregister hreg _)
  | exit hp hphase hcreated hreg =>
    refine ⟨hjoined, by rwa [hcreated], fun r hr hf => ?_⟩
    have hrs := hback (by rw [hp]; decide) (by rw [hp]; decide) hphase r hr
    exact entry_of_lookup hs hk h hrs hf (by rw [hreg])
  | stay ha hphase hcreated hreg =>
    refine ⟨hjoined, by rwa [hcreated], fun r hr hf => ?_⟩
    have hrs : Settled s r := by simpa [Settled, hphase] using hr
    exact entry_of_lookup hs hk h hrs hf (by rw [hreg])

/-! ### What is said of a thread -/

/-- Thread `p` joins thread `q` and nobody else does. -/
structure InHand (s : Process) (p q : ℕ) : Prop where
  settled : Settled s q
  joiner : (s.thr q).joiner = some p
  detached : (s.thr q).detached = false
  joined : (s.thr q).joined = false

/-- What a thread in a join knows of the other. -/
def PcOk (s : Process) (p : ℕ) : ThreadPc → Prop
  | .looking q => InHand s p q
  | .joining q remoteTid => InHand s p q ∧ remoteTid = s.reg.myTid q
  | .joined q remoteTid => Settled s q ∧ remoteTid = s.reg.myTid q
  | _ => True

/-- The tid in an event is that of the thread. -/
def EventOk (s : Process) : ThreadEvent → Prop
  | .other => True
  | .create q remoteTid | .join q remoteTid => Settled s q ∧ remoteTid = s.reg.myTid q

/-- What is said of a thread is true. -/
structure Told (s : Process) : Prop where
  pack : ∀ p, (s.thr p).pack ≠ UNDEFINED_TID → Settled s p ∧ (s.thr p).pack = s.reg.myTid p
  announced : ∀ p, (s.thr p).announced → Settled s p
  joined : ∀ p, (s.thr p).joined → (s.thr p).joiner ≠ none
  pc : ∀ p, PcOk s p (s.thr p).pc
  log : ∀ e ∈ s.log, (Settled s e.thread ∧ e.tid = s.reg.myTid e.thread) ∧ EventOk s e.event

theorem told_init : Told (init reuseTid handle) where
  pack p hp := by
    by_cases h0 : p = 0 <;> simp [init, h0] at hp
  announced p hp := by
    by_cases h0 : p = 0
    · subst h0
      exact ⟨(fun h => by cases h), (fun h => by cases h)⟩
    · simp [init, h0] at hp
  joined p hp := by
    by_cases h0 : p = 0 <;> simp [init, h0] at hp
  pc p := by
    by_cases h0 : p = 0 <;> simp [init, h0, PcOk]
  log e he := absurd he List.not_mem_nil

theorem settled_of_pc {pc : ThreadPc} {p : ℕ} (hp : (s.thr p).pc = pc) (h : pc.phase = .alive) : Settled s p := by
  have hphase : s.phase p = .alive := (congrArg ThreadPc.phase hp).trans h
  exact ⟨by rw [hphase]; decide, by rw [hphase]; decide⟩

/-- A join that is under way is left alone. -/
theorem inHand_step (hs : Stepped reuseTid s a s') (hk : Kept reuseTid s) (ht : Told s) {p q : ℕ}
    (ha : a ≠ .joinReturns p) (h : InHand s p q) : InHand s' p q := by
  have hq := mem_created_of_settled hk h.settled
  have hsame : ∀ {f : Pthread → Pthread} {r : ℕ}, q ≠ r → (s.upd r f).thr q = s.thr q := fun hne => upd_thr_of_ne hne
  have hfields : (s'.thr q).joiner = (s.thr q).joiner → (s'.thr q).detached = (s.thr q).detached →
      (s'.thr q).joined = (s.thr q).joined → InHand s' p q := fun hjoiner hdetached hjoined =>
    ⟨(settled_step hs hk h.settled).1, hjoiner.trans h.joiner, hdetached.trans h.detached, hjoined.trans h.joined⟩
  cases hs with
  | create hr hq' hfree =>
    have hne := ne_of_mem_of_not_mem hq hq'
    exact hfields (by simp [hsame hne]) (by simp [hsame hne]) (by simp [hsame hne])
  | @detach r q' hr hq' hd hj =>
    have hne : q ≠ q' := by
      rintro rfl
      rw [h.joiner] at hj
      cases hj
    exact hfields (by simp [hsame hne]) (by simp [hsame hne]) (by simp [hsame hne])
  | @join r q' hr hq' hj =>
    have hne : q ≠ q' := by
      rintro rfl
      simp [Pthread.joinable, h.joiner] at hj
    exact hfields (by simp [hsame hne]) (by simp [hsame hne]) (by simp [hsame hne])
  | @joinReturns r q' t hr ho =>
    have hne : q ≠ q' := by
      rintro rfl
      have hhand := ht.pc r
      rw [hr] at hhand
      have := hhand.1.joiner.symm.trans h.joiner
      exact ha (by rw [Option.some.inj this])
    exact hfields (by simp [hsame hne]) (by simp [hsame hne]) (by simp [hsame hne])
  | store =>
    exact hfields (upd_field Pthread.joiner rfl q) (upd_field Pthread.detached rfl q) (upd_field Pthread.joined rfl q)
  | announce =>
    exact hfields (goto_joiner.trans (upd_field Pthread.joiner rfl q))
      (goto_detached.trans (upd_field Pthread.detached rfl q)) (goto_joined.trans (upd_field Pthread.joined rfl q))
  | log | lost => exact hfields rfl rfl rfl
  | register | ret | unregister | exit | read | logJoin => exact hfields goto_joiner goto_detached goto_joined

/-- What a thread in a join knows stays true. -/
theorem pcOk_step (hs : Stepped reuseTid s a s') (hk : Kept reuseTid s) (ht : Told s) {p : ℕ} {pc : ThreadPc}
    (ha : a ≠ .joinReturns p) (h : PcOk s p pc) : PcOk s' p pc := by
  have hsettled : ∀ {q t}, Settled s q → t = s.reg.myTid q → Settled s' q ∧ t = s'.reg.myTid q := by
    rintro q t hq rfl
    have hq' := settled_step hs hk hq
    exact ⟨hq'.1, hq'.2.symm⟩
  cases pc with
  | looking q => exact inHand_step hs hk ht ha h
  | joining q remoteTid => exact ⟨inHand_step hs hk ht ha h.1, (hsettled h.1.settled h.2).2⟩
  | joined q remoteTid => exact hsettled h.1 h.2
  | _ => exact trivial

theorem pack_step (hs : Stepped reuseTid s a s') (hk : Kept reuseTid s) (ht : Told s) (p : ℕ)
    (hp : (s'.thr p).pack ≠ UNDEFINED_TID) : Settled s' p ∧ (s'.thr p).pack = s'.reg.myTid p := by
  have hold : (s'.thr p).pack = (s.thr p).pack → Settled s' p ∧ (s'.thr p).pack = s'.reg.myTid p := by
    intro he
    rw [he] at hp ⊢
    have h := ht.pack p hp
    have h' := settled_step hs hk h.1
    exact ⟨h'.1, h.2.trans h'.2.symm⟩
  cases hs with
  | @create r q _ _ hr hq hfree =>
    by_cases hpq : p = q
    · subst hpq
      simp [newThread] at hp
    · exact hold (by simp [upd_thr_of_ne hpq])
  | @store q hq =>
    by_cases hpq : p = q
    · subst hpq
      have h' := settled_step (.store hq) hk (settled_of_pc hq rfl)
      exact ⟨h'.1, by simpa using h'.2.symm⟩
    · exact hold (by rw [upd_thr_of_ne hpq])
  | announce | join | joinReturns => exact hold (goto_pack.trans (upd_field Pthread.pack rfl p))
  | detach => exact hold (upd_field Pthread.pack rfl p)
  | log | lost => exact hold rfl
  | register | ret | unregister | exit | read | logJoin => exact hold goto_pack

theorem announced_step (hs : Stepped reuseTid s a s') (hk : Kept reuseTid s) (ht : Told s) (p : ℕ)
    (hp : (s'.thr p).announced) : Settled s' p := by
  have hold : (s.thr p).announced → Settled s' p := fun h => (settled_step hs hk (ht.announced p h)).1
  have hsame : (s'.thr p).announced = (s.thr p).announced → Settled s' p := fun he => hold (he ▸ hp)
  cases hs with
  | @create r q _ _ hr hq hfree =>
    by_cases hpq : p = q
    · subst hpq
      simp [newThread] at hp
    · exact hsame (by simp [upd_thr_of_ne hpq])
  | @announce r q hr hq =>
    by_cases hpq : p = q
    · subst hpq
      exact (settled_step (.announce hr hq) hk (ht.pack p hq).1).1
    · exact hsame (by simp [upd_thr_of_ne hpq])
  | join | joinReturns => exact hsame (goto_announced.trans (upd_field Pthread.announced rfl p))
  | store | detach => exact hsame (upd_field Pthread.announced rfl p)
  | log | lost => exact hsame rfl
  | register | ret | unregister | exit | read | logJoin => exact hsame goto_announced

theorem pc_step (hs : Stepped reuseTid s a s') (hk : Kept reuseTid s) (hh : Handled s) (ht : Told s) (p : ℕ) :
    PcOk s' p (s'.thr p).pc := by
  -- a thread that has not moved
  have hold : a ≠ .joinReturns p → (s'.thr p).pc = (s.thr p).pc → PcOk s' p (s'.thr p).pc := by
    intro ha he
    rw [he]
    exact pcOk_step hs hk ht ha (ht.pc p)
  have hgoto : ∀ {s₁ : Process} {r pc}, (s₁.thr p).pc = (s.thr p).pc → p ≠ r →
      ((s₁.goto r pc).thr p).pc = (s.thr p).pc := fun he hr => by rw [goto_thr_of_ne hr, he]
  cases hs with
  | @create r q _ _ hr hq hfree =>
    by_cases hpr : p = r
    · subst hpr
      simp [PcOk]
    · by_cases hpq : p = q
      · subst hpq
        simp [goto_thr_of_ne hpr, newThread, PcOk]
      · exact hold nofun (hgoto (by rw [upd_thr_of_ne hpq]) hpr)
  | @store q hq =>
    by_cases hpq : p = q
    · subst hpq
      simp [PcOk]
    · exact hold nofun (by rw [upd_thr_of_ne hpq])
  | @announce r q hr hq =>
    by_cases hpr : p = r
    · subst hpr
      simp [PcOk]
    · exact hold nofun (hgoto (upd_field Pthread.pc rfl p) hpr)
  | log | lost => exact hold nofun rfl
  | detach => exact hold nofun (upd_field Pthread.pc rfl p)
  | @join r q hr hq hj =>
    by_cases hpr : p = r
    · subst hpr
      have hs' : Stepped reuseTid s (.join p q) _ := .join hr hq hj
      simp only [Pthread.joinable, Bool.and_eq_true, Bool.not_eq_true', Option.isNone_iff_eq_none] at hj
      have hnot : (s.thr q).joined = false := by
        rw [← Bool.not_eq_true]
        exact fun hjoined => ht.joined q hjoined hj.2
      rw [goto_thr_self]
      exact ⟨(settled_step hs' hk (ht.announced q hj.1.1)).1, by simp, by simpa using hj.1.2, by simpa using hnot⟩
    · exact hold nofun (hgoto (upd_field Pthread.pc rfl p) hpr)
  | @read r q remoteTid hr hl =>
    by_cases hpr : p = r
    · subst hpr
      have hs' : Stepped reuseTid s (.read p) _ := .read hr hl
      have hhand := ht.pc p
      rw [hr] at hhand
      have hentry := hh.entry q hhand.settled (by simp [Pthread.freed, hhand.joined, hhand.detached])
      obtain rfl := Option.some.inj (hl.symm.trans hentry)
      rw [goto_thr_self]
      exact ⟨inHand_step hs' hk ht nofun hhand, rfl⟩
    · exact hold nofun (hgoto rfl hpr)
  | @joinReturns r q remoteTid hr hq =>
    by_cases hpr : p = r
    · subst hpr
      have hhand := ht.pc p
      rw [hr] at hhand
      have h' := settled_step (.joinReturns hr hq) hk hhand.1.settled
      rw [goto_thr_self]
      exact ⟨h'.1, hhand.2.trans h'.2.symm⟩
    · exact hold (by simpa using Ne.symm hpr) (hgoto (upd_field Pthread.pc rfl p) hpr)
  | @register r hr | @ret r hr | @unregister r _ hr | @exit r hr | @logJoin r _ _ hr =>
    by_cases hpr : p = r
    · subst hpr
      simp [PcOk]
    · exact hold nofun (hgoto rfl hpr)

theorem joined_step (hs : Stepped reuseTid s a s') (ht : Told s) (p : ℕ) (hp : (s'.thr p).joined) :
    (s'.thr p).joiner ≠ none := by
  have hsame : (s'.thr p).joined = (s.thr p).joined → (s'.thr p).joiner = (s.thr p).joiner →
      (s'.thr p).joiner ≠ none := by
    intro hj he
    rw [he]
    exact ht.joined p (hj ▸ hp)
  cases hs with
  | @create r q _ _ hr hq hfree =>
    by_cases hpq : p = q
    · subst hpq
      simp [newThread] at hp
    · exact hsame (by simp [upd_thr_of_ne hpq]) (by simp [upd_thr_of_ne hpq])
  | announce =>
    exact hsame (goto_joined.trans (upd_field Pthread.joined rfl p))
      (goto_joiner.trans (upd_field Pthread.joiner rfl p))
  | @join r q hr hq hj =>
    by_cases hpq : p = q
    · subst hpq
      simp
    · exact hsame (by simp [upd_thr_of_ne hpq]) (by simp [upd_thr_of_ne hpq])
  | @joinReturns r q t hr hq =>
    by_cases hpq : p = q
    · subst hpq
      have hhand := ht.pc r
      rw [hr] at hhand
      simp [hhand.1.joiner]
    · exact hsame (by simp [upd_thr_of_ne hpq]) (by simp [upd_thr_of_ne hpq])
  | store | detach => exact hsame (upd_field Pthread.joined rfl p) (upd_field Pthread.joiner rfl p)
  | log | lost => exact hsame rfl rfl
  | register | ret | unregister | exit | read | logJoin => exact hsame goto_joined goto_joiner

theorem log_step (hs : Stepped reuseTid s a s') (hk : Kept reuseTid s) (ht : Told s) :
    ∀ e ∈ s'.log, (Settled s' e.thread ∧ e.tid = s'.reg.myTid e.thread) ∧ EventOk s' e.event := by
  have hsettled : ∀ {q t}, Settled s q ∧ t = s.reg.myTid q → Settled s' q ∧ t = s'.reg.myTid q := by
    rintro q t ⟨hq, rfl⟩
    have hq' := settled_step hs hk hq
    exact ⟨hq'.1, hq'.2.symm⟩
  have hold : ∀ e ∈ s.log, (Settled s' e.thread ∧ e.tid = s'.reg.myTid e.thread) ∧ EventOk s' e.event := by
    intro e he
    refine ⟨hsettled (ht.log e he).1, ?_⟩
    have hevent := (ht.log e he).2
    cases hev : e.event with
    | other => exact trivial
    | create q remoteTid =>
      rw [hev] at hevent
      exact hsettled hevent
    | join q remoteTid =>
      rw [hev] at hevent
      exact hsettled hevent
  -- one more event, of a thread that has a tid
  have hmore : ∀ {r pc event}, s'.log = s.log ++ [⟨r, s.reg.myTid r, event⟩] → (s.thr r).pc = pc →
      pc.phase = .alive → EventOk s' event →
      ∀ e ∈ s'.log, (Settled s' e.thread ∧ e.tid = s'.reg.myTid e.thread) ∧ EventOk s' e.event := by
    intro r pc event hlog hr hpc hevent e he
    rw [hlog] at he
    rcases List.mem_append.mp he with he | he
    · exact hold e he
    · obtain rfl := List.mem_singleton.mp he
      exact ⟨hsettled ⟨settled_of_pc hr hpc, rfl⟩, hevent⟩
  cases hs with
  | @announce p q hp hq => exact hmore rfl hp rfl (hsettled (ht.pack q hq))
  | log hp => exact hmore rfl hp rfl trivial
  | @logJoin p q t hp =>
    have hpc := ht.pc p
    rw [hp] at hpc
    exact hmore rfl hp rfl (hsettled hpc)
  | create | register | store | ret | unregister | exit | detach | lost | join | read | joinReturns => exact hold

theorem told_step (hs : Stepped reuseTid s a s') (hk : Kept reuseTid s) (hh : Handled s) (ht : Told s) :
    Told s' :=
  ⟨pack_step hs hk ht, announced_step hs hk ht, joined_step hs ht, pc_step hs hk hh ht, log_step hs hk ht⟩

/-! ### Runs -/

/-- All of it. -/
structure Sane (reuseTid : Bool) (s : Process) : Prop where
  kept : Kept reuseTid s
  counted : Counted s
  handled : Handled s
  told : Told s
  aborted : s.aborted = false

theorem sane_init : Sane reuseTid (init reuseTid handle) where
  kept := kept_init
  counted := by
    refine ⟨List.nodup_singleton 0, [0], List.nodup_singleton 0, rfl, fun p hp => ?_⟩
    obtain rfl := List.mem_singleton.mp hp
    exact ⟨nofun, nofun⟩
  handled := by
    refine ⟨fun p hp => ?_, fun p hp q hq _ _ _ => ?_, fun p hp _ => ?_⟩
    · by_cases h0 : p = 0 <;> simp [init, h0] at hp
    · exact (List.mem_singleton.mp hp).trans (List.mem_singleton.mp hq).symm
    · by_cases h0 : p = 0
      · subst h0
        show Tid.lookupTid handle (Registry.init.register reuseTid 0 handle).tids = _
        rw [Registry.lookupTid_register, if_pos rfl]
        rfl
      · simp [Settled, phase, init, h0, ThreadPc.phase] at hp
  told := told_init
  aborted := rfl

/-- A thread that may be joined is found. -/
theorem Sane.lookupTid (h : Sane reuseTid s) {q : ℕ} (hj : (s.thr q).joinable) :
    Tid.lookupTid (s.thr q).handle s.reg.tids = some (s.reg.myTid q) := by
  simp only [Pthread.joinable, Bool.and_eq_true, Bool.not_eq_true', Option.isNone_iff_eq_none] at hj
  have hnot : (s.thr q).joined = false := by
    rw [← Bool.not_eq_true]
    exact fun hjoined => h.told.joined q hjoined hj.2
  exact h.handled.entry q (h.told.announced q hj.1.1) (by simp [Pthread.freed, hnot, hj.1.2])

theorem sane_step (hs : Stepped reuseTid s a s') (h : Sane reuseTid s) (hfew : s.created.length ≤ MAX_NR_THREAD) :
    Sane reuseTid s' where
  kept := kept_step hs h.kept fun _ _ hq => room_of_few h.kept h.counted hfew hq
  counted := counted_step hs h.kept h.counted
  handled := handled_step hs h.kept h.handled
  told := told_step hs h.kept h.handled h.told
  aborted := by
    cases hs with
    | lost hp hq hj hl =>
      rw [h.lookupTid hj] at hl
      cases hl
    | _ => exact h.aborted

theorem length_created_step (hs : Stepped reuseTid s a s') :
    s'.created.length = s.created.length + if a.creates then 1 else 0 := by
  cases hs <;> rfl

theorem sane_of_exec (h : exec (step reuseTid) (init reuseTid handle) as = some s)
    (hfew : as.countP Action.creates < MAX_NR_THREAD) :
    Sane reuseTid s ∧ s.created.length = as.countP Action.creates + 1 := by
  refine exec_invariant (I := fun as s => as.countP Action.creates < MAX_NR_THREAD →
    Sane reuseTid s ∧ s.created.length = as.countP Action.creates + 1) h (fun _ => ⟨sane_init, rfl⟩) ?_ hfew
  intro as s a s' hI hs hfew
  rw [List.countP_append, List.countP_singleton] at hfew ⊢
  obtain ⟨hsane, hlen⟩ := hI (by omega)
  have hstep := (step_cases hs).2.2
  exact ⟨sane_step hstep hsane (by omega), by rw [length_created_step hstep, hlen]; omega⟩

/-- **Joins name the right thread**: in every run with fewer than `MAX_NR_THREAD` creations the tid in the
event of a creation or a join is the tid of all events that the thread logs, and a thread that may be
joined is found under its `pthread_t`. -/
theorem events_name_threads (h : exec (step reuseTid) (init reuseTid handle) as = some s)
    (hfew : as.countP Action.creates < MAX_NR_THREAD) :
    (∀ e ∈ s.log, ∀ q remoteTid, e.event = .create q remoteTid ∨ e.event = .join q remoteTid →
      ∀ e' ∈ s.log, e'.thread = q → e'.tid = remoteTid) ∧
    s.aborted = false ∧
    ∀ q, (s.thr q).joinable → (Tid.lookupTid (s.thr q).handle s.reg.tids).isSome := by
  obtain ⟨hsane, -⟩ := sane_of_exec h hfew
  refine ⟨fun e he q remoteTid hevent e' he' hq => ?_, hsane.aborted, fun q hj => ?_⟩
  · obtain ⟨⟨-, htid⟩, -⟩ := hsane.told.log e' he'
    have hok := (hsane.told.log e he).2
    rw [htid, hq]
    rcases hevent with hev | hev <;> rw [hev] at hok <;> exact hok.2.symm
  · rw [hsane.lookupTid hj]
    rfl

/-- A thread is joined, and another one gets its `pthread_t` and its tid. -/
def joinTwice : List Action :=
  [.create 0 1 7 false, .register 1, .store 1, .announce 0, .log 1, .ret 1, .unregister 1,
   .join 0 1, .read 0, .joinReturns 0, .logJoin 0,
   .create 0 2 7 false, .register 2, .store 2, .log 2, .announce 0, .join 0 2, .read 0, .exit 2,
   .joinReturns 0, .logJoin 0]

theorem joinTwice_named :
    ∃ s, exec (step true) (init true 3) joinTwice = some s ∧
      s.log.map (fun e => (e.thread, e.tid)) = [(0, 0), (1, 1), (0, 0), (2, 1), (0, 0), (0, 0)] ∧
      ∀ e ∈ s.log, ∀ q remoteTid, e.event = .create q remoteTid ∨ e.event = .join q remoteTid →
        ∀ e' ∈ s.log, e'.thread = q → e'.tid = remoteTid := by
  have hrun : (exec (step true) (init true 3) joinTwice).map (fun s => s.log.map fun e => (e.thread, e.tid)) =
      some [(0, 0), (1, 1), (0, 0), (2, 1), (0, 0), (0, 0)] := by decide +kernel
  obtain ⟨s, h, hlog⟩ := Option.map_eq_some_iff.mp hrun
  exact ⟨s, h, hlog, (events_name_threads h (by decide)).1⟩

end Process

end Schnauzer
