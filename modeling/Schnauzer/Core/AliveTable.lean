import Schnauzer.Core.Threads

/-!
# The table of threads alive

`isThreadAlive` against the threads that are in fact alive. A thread that returns from its routine
unregisters; one that leaves through `pthread_exit_wrapper` does not.

## What is proved

* `truthful_iff_no_exit` — the table tells the truth in every state of a run, and under `REUSE_TID` fewer
  than `MAX_NR_THREAD` threads at once do not exhaust it, if and only if no thread exits.
-/

namespace Schnauzer

open Runs

namespace Process

variable {reuseTid : Bool} {s s' : Process} {a : Action} {handle : ℕ} {as : List Action}

/-- The table says who is alive. -/
def Truthful (s : Process) : Prop :=
  ∀ t < MAX_NR_THREAD, Tid.isThreadAlive t s.reg.tids ↔ ∃ p, s.phase p = .alive ∧ s.reg.myTid p = t

/-- The threads that are alive. -/
def aliveThreads (s : Process) : List ℕ := s.created.filter fun p => s.phase p = .alive

/-- What the registry has of the threads. -/
structure Kept (reuseTid : Bool) (s : Process) : Prop where
  sound : s.reg.Sound reuseTid
  absent_iff : ∀ p, s.phase p = .absent ↔ p ∉ s.created
  registered_iff : ∀ p, p ∈ s.reg.registered ↔ s.phase p = .alive ∨ s.phase p = .exited
  fresh : ∀ p, s.phase p = .absent ∨ s.phase p = .starting → s.reg.myTid p = UNDEFINED_TID

theorem kept_init : Kept reuseTid (init reuseTid handle) where
  sound := Registry.sound_init.register rfl List.not_mem_nil (by cases reuseTid <;> exact Nat.succ_pos _)
  absent_iff p := by
    by_cases hp : p = 0 <;> simp [init, phase, hp, ThreadPc.phase]
  registered_iff p := by
    by_cases hp : p = 0 <;> simp [init, Registry.register, Registry.init, phase, hp, ThreadPc.phase]
  fresh p hp := by
    by_cases h0 : p = 0
    · simp [init, phase, h0, ThreadPc.phase] at hp
    · exact Function.update_of_ne h0 ..

/-- A thread that has been created goes on in its life. -/
theorem Kept.absent_iff_update {p : ℕ} {c : Phase} (h : Kept reuseTid s) (hp : s.phase p ≠ .absent)
    (hc : c ≠ .absent) (r : ℕ) : Function.update s.phase p c r = .absent ↔ r ∉ s.created := by
  rw [← h.absent_iff]
  by_cases hr : r = p
  · subst hr
    rw [Function.update_self]
    exact iff_of_false hc hp
  · rw [Function.update_of_ne hr]

/-- A thread that is past its registration is not among the fresh ones. -/
theorem Kept.fresh_update {p r : ℕ} {c : Phase} (h : Kept reuseTid s) (hc : c ≠ .absent ∧ c ≠ .starting)
    (hr : Function.update s.phase p c r = .absent ∨ Function.update s.phase p c r = .starting) :
    r ≠ p ∧ s.reg.myTid r = UNDEFINED_TID := by
  have hrp : r ≠ p := by
    rintro rfl
    rw [Function.update_self] at hr
    exact hr.elim hc.1 hc.2
  rw [Function.update_of_ne hrp] at hr
  exact ⟨hrp, h.fresh r hr⟩

/-- One step, if there is room for the thread that registers in it. -/
theorem kept_step (hs : Stepped reuseTid s a s') (h : Kept reuseTid s)
    (hroom : ∀ q, a = .register q → s.phase q = .starting →
      Registry.Room reuseTid s.reg.registered.length s.reg.nrRegistrations) : Kept reuseTid s' := by
  cases lives_of_stepped hs h.absent_iff with
  | @create p q _ _ hq hphase hcreated hreg =>
    have hqa := (h.absent_iff q).mpr hq
    refine ⟨hreg ▸ h.sound, fun r => ?_, fun r => ?_, fun r hr => ?_⟩
    · rw [hphase, hcreated]
      by_cases hrq : r = q
      · subst hrq
        simp
      · simpa [Function.update_of_ne hrq, hrq] using h.absent_iff r
    · rw [hphase, hreg, h.registered_iff r]
      by_cases hrq : r = q
      · subst hrq
        simp [hqa]
      · rw [Function.update_of_ne hrq]
    · rw [hreg]
      by_cases hrq : r = q
      · exact h.fresh r (Or.inl (hrq ▸ hqa))
      · rw [hphase, Function.update_of_ne hrq] at hr
        exact h.fresh r hr
  | @register q hq hphase hcreated hreg =>
    have hnot : q ∉ s.reg.registered := fun hm => by
      have := (h.registered_iff q).mp hm
      rw [hq] at this
      rcases this with h | h <;> cases h
    have hfresh := h.fresh q (Or.inr hq)
    refine ⟨hreg ▸ h.sound.register hfresh hnot (hroom q rfl hq), fun r => ?_, fun r => ?_, fun r hr => ?_⟩
    · rw [hphase, hcreated]
      exact h.absent_iff_update (by rw [hq]; decide) (by decide) r
    · rw [hphase, hreg, Registry.register, List.mem_cons, h.registered_iff r]
      by_cases hrq : r = q
      · subst hrq
        simp
      · simp [hrq]
    · rw [hphase] at hr
      obtain ⟨hrq, hr⟩ := h.fresh_update (by decide) hr
      rw [hreg]
      exact (Function.update_of_ne hrq ..).trans hr
  | @unregister p hp hphase hcreated hreg =>
    obtain ⟨r', hr', hsound⟩ := h.sound.unregister ((h.registered_iff p).mpr (Or.inl hp))
    obtain rfl := Option.some.inj (hreg.symm.trans hr')
    obtain ⟨tids, -, hfields⟩ := Option.map_eq_some_iff.mp hreg
    refine ⟨hsound, fun r => ?_, fun r => ?_, fun r hr => ?_⟩
    · rw [hphase, hcreated]
      exact h.absent_iff_update (by rw [hp]; decide) (by decide) r
    · rw [hphase, ← hfields, h.sound.nodup.mem_erase_iff, h.registered_iff r]
      by_cases hrp : r = p
      · subst hrp
        simp
      · simp [hrp]
    · rw [hphase] at hr
      rw [← hfields]
      exact (h.fresh_update (by decide) hr).2
  | @exit p hp hphase hcreated hreg =>
    refine ⟨hreg ▸ h.sound, fun r => ?_, fun r => ?_, fun r hr => ?_⟩
    · rw [hphase, hcreated]
      exact h.absent_iff_update (by rw [hp]; decide) (by decide) r
    · rw [hphase, hreg, h.registered_iff r]
      by_cases hrp : r = p
      · subst hrp
        simp [hp]
      · rw [Function.update_of_ne hrp]
    · rw [hphase] at hr
      rw [hreg]
      exact (h.fresh_update (by decide) hr).2
  | stay ha hphase hcreated hreg =>
    refine ⟨hreg ▸ h.sound, fun r => ?_, fun r => ?_, fun r hr => ?_⟩
    · rw [hphase, hcreated]
      exact h.absent_iff r
    · rw [hphase, hreg]
      exact h.registered_iff r
    · rw [hphase] at hr
      rw [hreg]
      exact h.fresh r hr

/-- The table counts a thread that has exited among the living. -/
theorem Kept.truthful_iff (h : Kept reuseTid s) : s.Truthful ↔ ∀ p, s.phase p ≠ .exited := by
  constructor
  · intro htrue p hp
    have hmem := (h.registered_iff p).mpr (Or.inr hp)
    have hmax := (h.sound.lt_counter p hmem).trans_le h.sound.counter_le
    obtain ⟨q, hq, he⟩ := (htrue _ hmax).mp ((h.sound.alive_iff _ hmax).mpr ⟨p, hmem, rfl⟩)
    obtain rfl := h.sound.inj q ((h.registered_iff q).mpr (Or.inl hq)) p hmem he
    rw [hp] at hq
    cases hq
  · intro hno t ht
    refine (h.sound.alive_iff t ht).trans (exists_congr fun p => and_congr_left fun _ => ?_)
    rw [h.registered_iff]
    exact or_iff_left (hno p)

/-- A thread exits only in `pthread_exit_wrapper`. -/
theorem not_exited_step (hs : Stepped reuseTid s a s') (h : Kept reuseTid s) (ha : ∀ p, a ≠ .exit p)
    (hno : ∀ p, s.phase p ≠ .exited) (p : ℕ) : s'.phase p ≠ .exited := by
  have hupdate : ∀ {q c}, c ≠ Phase.exited → Function.update s.phase q c p ≠ .exited := by
    intro q c hc
    by_cases hq : p = q
    · subst hq
      rwa [Function.update_self]
    · rw [Function.update_of_ne hq]
      exact hno p
  cases lives_of_stepped hs h.absent_iff with
  | create hq hphase => exact hphase ▸ hupdate (by decide)
  | register hq hphase => exact hphase ▸ hupdate (by decide)
  | unregister hp hphase => exact hphase ▸ hupdate (by decide)
  | exit => exact absurd rfl (ha _)
  | stay hne hphase => exact hphase ▸ hno p

/-- A thread without an entry of its own changes nothing in the table. -/
theorem truthful_of_full {q : ℕ} (hq : (s.thr q).pc = .starting) (h : Kept reuseTid s)
    (hfull : ¬ Registry.Room reuseTid s.reg.registered.length s.reg.nrRegistrations) (htrue : s.Truthful) :
    (s.reg.register reuseTid q (s.thr q).handle).tids.overrun = true ∧
      Truthful { s.goto q .storing with reg := s.reg.register reuseTid q (s.thr q).handle } := by
  have hphase : s.phase q = .starting := congrArg ThreadPc.phase hq
  have hnew : s.reg.newTid reuseTid q (s.thr q).handle = MAX_NR_THREAD :=
    h.sound.newTid_of_full (h.fresh q (Or.inr hphase)) hfull
  obtain ⟨hover, hsame⟩ := Registry.overrun_of_max_le reuseTid _ _ _ hnew.ge
  refine ⟨hover, fun t ht => ?_⟩
  have halive : Tid.isThreadAlive t (s.reg.register reuseTid q (s.thr q).handle).tids =
      Tid.isThreadAlive t s.reg.tids := congrFun hsame t
  rw [halive, htrue t ht]
  apply exists_congr
  intro p
  show _ ↔ (s.goto q .storing).phase p = _ ∧ (s.reg.register reuseTid q (s.thr q).handle).myTid p = t
  rw [phase_goto]
  by_cases hpq : p = q
  · subst hpq
    have hmy : (s.reg.register reuseTid p (s.thr p).handle).myTid p = MAX_NR_THREAD :=
      (Function.update_self ..).trans hnew
    rw [hphase, hmy]
    exact iff_of_false (fun h => by cases h.1) fun h => absurd h.2 ht.ne'
  · have hmy : (s.reg.register reuseTid q (s.thr q).handle).myTid p = s.reg.myTid p :=
      Function.update_of_ne hpq ..
    rw [Function.update_of_ne hpq, hmy]

/-! ### Runs -/

/-- What holds in a run up to the end of the table, and as long as no thread exits. -/
structure Watched (reuseTid : Bool) (as : List Action) (s : Process) : Prop where
  kept : s.reg.tids.overrun = false → Kept reuseTid s
  truthful : (∀ p, .exit p ∉ as) → s.Truthful
  not_exited : (∀ p, .exit p ∉ as) → ∀ p, s.phase p ≠ .exited

theorem watched_step (hs : step reuseTid s a = some s') (h : Watched reuseTid as s) :
    Watched reuseTid (as ++ [a]) s' := by
  obtain ⟨-, hover, hs⟩ := step_cases hs
  have hk := h.kept hover
  have hold : (∀ p, .exit p ∉ as ++ [a]) → (∀ p, .exit p ∉ as) ∧ ∀ p, a ≠ .exit p := fun hno =>
    ⟨fun p hp => hno p (List.mem_append_left _ hp), fun p hp => hno p (by simp [hp])⟩
  have hnot : (∀ p, .exit p ∉ as ++ [a]) → ∀ p, s'.phase p ≠ .exited := fun hno =>
    not_exited_step hs hk (hold hno).2 (h.not_exited (hold hno).1)
  by_cases hroom : ∀ q, a = .register q → s.phase q = .starting →
      Registry.Room reuseTid s.reg.registered.length s.reg.nrRegistrations
  · have hk' := kept_step hs hk hroom
    exact ⟨fun _ => hk', fun hno => hk'.truthful_iff.mpr (hnot hno), hnot⟩
  · push Not at hroom
    obtain ⟨q, rfl, -, hfull⟩ := hroom
    cases hs with
    | register hq =>
      refine ⟨fun hover' => ?_, fun hno => ?_, hnot⟩
      · have hphase : s.phase q = .starting := congrArg ThreadPc.phase hq
        have hnew : s.reg.newTid reuseTid q (s.thr q).handle = MAX_NR_THREAD :=
          hk.sound.newTid_of_full (hk.fresh q (Or.inr hphase)) hfull
        have := (Registry.overrun_of_max_le reuseTid _ _ _ hnew.ge).1.symm.trans hover'
        cases this
      · exact (truthful_of_full hq hk hfull (h.truthful (hold hno).1)).2

theorem watched_of_exec (h : exec (step reuseTid) (init reuseTid handle) as = some s) :
    Watched reuseTid as s := by
  have hk : Kept reuseTid (init reuseTid handle) := kept_init
  have hno : ∀ p, (init reuseTid handle).phase p ≠ .exited := by
    intro p
    by_cases hp : p = 0 <;> simp [init, phase, hp, ThreadPc.phase]
  exact exec_invariant h ⟨fun _ => hk, fun _ => hk.truthful_iff.mpr hno, fun _ => hno⟩
    fun _ _ _ _ h hs => watched_step hs h

/-- Who is registered has been created. -/
theorem Kept.registered_subset (h : Kept reuseTid s) (hno : ∀ p, s.phase p ≠ .exited) :
    s.reg.registered ⊆ s.aliveThreads := by
  intro p hp
  have halive := ((h.registered_iff p).mp hp).resolve_right (hno p)
  refine List.mem_filter.mpr ⟨?_, decide_eq_true halive⟩
  by_contra hnot
  rw [(h.absent_iff p).mpr hnot] at halive
  cases halive

/-- Under `REUSE_TID` the table is large enough for those who are alive. -/
theorem room_for_alive (h : exec (step true) (init true handle) as = some s) (hno : ∀ p, .exit p ∉ as)
    (hfew : ∀ as' s', as' <+: as → exec (step true) (init true handle) as' = some s' →
      s'.aliveThreads.length < MAX_NR_THREAD) : s.reg.tids.overrun = false := by
  induction as using List.reverseRecOn generalizing s with
  | nil =>
    cases h
    exact kept_init.sound.overrun
  | append_singleton as a ih =>
    obtain ⟨s₁, h₁, h⟩ := exec_append_eq_some.mp h
    obtain ⟨s₂, hs, h⟩ := Option.bind_eq_some_iff.mp h
    cases h
    have hno₁ : ∀ p, .exit p ∉ as := fun p hp => hno p (List.mem_append_left _ hp)
    have hover := ih h₁ hno₁ fun as' s' hle => hfew as' s' (hle.trans (List.prefix_append ..))
    have hw := watched_of_exec h₁
    have hk := hw.kept hover
    refine (kept_step (step_cases hs).2.2 hk fun _ _ _ => ?_).sound.overrun
    have hle := (List.subperm_of_subset hk.sound.nodup (hk.registered_subset (hw.not_exited hno₁))).length_le
    exact hle.trans_lt (hfew as s₁ (List.prefix_append ..) h₁)

/-- **The table of threads alive**: it tells the truth all along a run, and a run under `REUSE_TID` with
fewer than `MAX_NR_THREAD` threads alive at a time does not leave it, if and only if no thread
of the run exits. -/
theorem truthful_iff_no_exit (h : exec (step reuseTid) (init reuseTid handle) as = some s) :
    ((∀ as' s', as' <+: as → exec (step reuseTid) (init reuseTid handle) as' = some s' → s'.Truthful) ∧
      (reuseTid → (∀ as' s', as' <+: as → exec (step reuseTid) (init reuseTid handle) as' = some s' →
        s'.aliveThreads.length < MAX_NR_THREAD) → s.reg.tids.overrun = false)) ↔
      ∀ p, .exit p ∉ as := by
  constructor
  · rintro ⟨htrue, -⟩ p hp
    obtain ⟨l, l', rfl⟩ := List.append_of_mem hp
    have hpre : l ++ [.exit p] <+: l ++ .exit p :: l' := ⟨l', by simp⟩
    obtain ⟨s₁, h₁, h₂⟩ := exec_append_eq_some.mp h
    obtain ⟨s₂, hs, -⟩ := Option.bind_eq_some_iff.mp h₂
    have hrun : exec (step reuseTid) (init reuseTid handle) (l ++ [.exit p]) = some s₂ :=
      exec_append_eq_some.mpr ⟨s₁, h₁, by simp [exec, hs]⟩
    obtain ⟨-, hover, hstep⟩ := step_cases hs
    have hk := kept_step hstep ((watched_of_exec h₁).kept hover) (fun q hq => by cases hq)
    refine (hk.truthful_iff.mp (htrue _ _ hpre hrun)) p ?_
    cases hstep with
    | exit hp =>
      rw [phase_goto, Function.update_self]
      rfl
  · intro hno
    refine ⟨fun as' s' hle h' => ?_, fun hreuse hfew => ?_⟩
    · exact (watched_of_exec h').truthful fun p hp => hno p (hle.subset hp)
    · subst hreuse
      exact room_for_alive h hno hfew

/-- A thread `p` is created, runs and ends with `last`. -/
def brief (p : ℕ) (last : List Action) : List Action :=
  [.create 0 p p true, .register p, .store p, .announce 0] ++ last

theorem truthful_brief :
    ∃ s, exec (step true) (init true 0) (brief 1 [.ret 1, .unregister 1]) = some s ∧ s.Truthful := by
  have hrun : (exec (step true) (init true 0) (brief 1 [.ret 1, .unregister 1])).isSome := by decide +kernel
  obtain ⟨s, h⟩ := Option.isSome_iff_exists.mp hrun
  have hno : ∀ p, Action.exit p ∉ brief 1 [.ret 1, .unregister 1] := by simp [brief]
  exact ⟨s, h, ((truthful_iff_no_exit h).mpr hno).1 _ s List.prefix_rfl h⟩

/-- Threads `1` to `n` exit, each before the next is created. -/
def exits (n : ℕ) : List Action := (List.range n).flatMap fun i => brief (i + 1) [.exit (i + 1)]

/-- The table says that a thread is alive which has exited; after forty-nine of them there is no entry
left for a second thread. -/
theorem exits_fill_table :
    (∃ s, exec (step true) (init true 0) (exits 1) = some s ∧ ¬ s.Truthful) ∧
      ∃ s, exec (step true) (init true 0) (exits 49 ++ [.create 0 50 50 true, .register 50]) = some s ∧
        s.aliveThreads = [50, 0] ∧ s.reg.tids.overrun = true := by
  constructor
  · have hone : (exec (step true) (init true 0) (exits 1)).map
        (fun s => (s.phase 1, s.reg.tids.overrun)) = some (.exited, false) := by decide +kernel
    obtain ⟨s, hs, hp⟩ := Option.map_eq_some_iff.mp hone
    refine ⟨s, hs, fun htrue => ?_⟩
    have hk := (watched_of_exec hs).kept (congrArg Prod.snd hp)
    exact hk.truthful_iff.mp htrue 1 (congrArg Prod.fst hp)
  · have hmany : (exec (step true) (init true 0) (exits 49 ++ [.create 0 50 50 true, .register 50])).map
        (fun s => (s.aliveThreads, s.reg.tids.overrun)) = some ([50, 0], true) := by decide +kernel
    obtain ⟨s, hs, hp⟩ := Option.map_eq_some_iff.mp hmany
    exact ⟨s, hs, congrArg Prod.fst hp, congrArg Prod.snd hp⟩

end Process

end Schnauzer
