import Schnauzer.Scs.Balance

/-!
# The money of a thread

## What is proved

* `passes_le_initMoney` — from one reset to the next a thread that is outside synchronisations at the
  first passes the gates at most as often as its initial amount says, if it does not run the hook
  after an unlock; `unlock_overspends` is a run in which it does.
-/

namespace Schnauzer

open Machine MoneyMngr Runs

variable {cfg : Config} {s s' s₁ s₂ : State} {a : Action} {t : ℕ}

/-! ### Invariants of all runs -/

/-- The hook after an unlock has nothing left. -/
def Pc.unlocked : Pc → Bool
  | .after call [] => call.op.isUnlock
  | _ => false

/-- What a thread does in the hook after an unlock: nothing that its money shows, the
`beforeSyncOperation` of the hook, or the end of it. -/
theorem afterUnlock_cases (hstep : Stepped cfg s a s') (ha : a.thread = some t)
    (hu : (s.thr t).pc.afterUnlock) (hok : ((s.thr t).pc).Ok cfg.log ∨ (s.thr t).pc.unlocked) :
    (s'.thr t).pc = (s.thr t).pc ∧ s'.sched.money t = s.sched.money t ∨
      ¬ (s.thr t).pc.unlocked ∧ (s'.thr t).pc.unlocked ∧
        s'.sched.money t = currThreadEnterSync (decCurrThreadMoney (s.sched.money t)) ∨
      a = .ret t ∧ (s'.thr t).pc = .idle ∧ s'.sched.money t = s.sched.money t := by
  have hhead : ∀ {call stmt next}, (s.thr t).pc.head = some (call, stmt, next) →
      stmt = .scs .beforeSyncOperation ∧ ¬ (s.thr t).pc.unlocked ∧ next.unlocked := by
    intro call stmt next hpc
    cases hp : (s.thr t).pc with
    | idle => simp [hp, Pc.afterUnlock] at hu
    | inside c => simp [hp, Pc.afterUnlock] at hu
    | before c todo => simp [hp, Pc.afterUnlock] at hu
    | after c todo =>
      rw [hp] at hpc hu hok
      cases todo with
      | nil => cases hpc
      | cons stmt' todo =>
        obtain ⟨-, rfl, rfl⟩ : c = call ∧ stmt' = stmt ∧ .after c todo = next := by
          simpa [Pc.head] using hpc
        have hu' : c.op.isUnlock := hu
        rcases hok with (⟨r, hr⟩ | ⟨hnu, -⟩) | hun
        · rw [c.after_of_isUnlock hu' r] at hr
          cases hr
          exact ⟨rfl, Bool.false_ne_true, hu'⟩
        · exact absurd hu' hnu
        · cases hun
  cases hstep with
  | call hpc =>
    cases ha
    simp [hpc, Pc.afterUnlock] at hu
  | block =>
    cases ha
    exact Or.inl ⟨by simp [setThr], rfl⟩
  | enter hpc =>
    cases ha
    refine Or.inr (Or.inl ⟨?_, by simpa [setThr] using (hhead hpc).2.2, ?_⟩)
    · exact (hhead hpc).2.1
    · simp [Sched.payAndEnter, Sched.setMoney]
  | pay hpc hc =>
    cases ha
    obtain ⟨hstmt, -⟩ := hhead hpc
    rcases hc with rfl | rfl <;> cases hstmt
  | skip hpc hc =>
    cases ha
    obtain ⟨hstmt, -⟩ := hhead hpc
    rcases hc with rfl | rfl <;> cases hstmt
  | leave hpc =>
    cases ha
    cases (hhead hpc).1
  | log hpc =>
    cases ha
    cases (hhead hpc).1
  | store =>
    cases ha
    exact Or.inl ⟨by simp [setThr], rfl⟩
  | inside hpc =>
    cases ha
    simp [hpc, Pc.afterUnlock] at hu
  | idle =>
    cases ha
    exact Or.inr (Or.inr ⟨rfl, by simp [setThr], rfl⟩)
  | real hpc =>
    cases ha
    simp [hpc, Pc.afterUnlock] at hu
  | supervise => cases ha

/-- A thread without a number stays where it is. -/
theorem idle_step (hstep : Stepped cfg s a s') (ht : MAX_NR_THREAD ≤ t) (hidle : (s.thr t).pc = .idle) :
    (s'.thr t).pc = .idle := by
  by_cases ha : a.thread = some t
  swap
  · rw [thr_of_ne hstep ha, hidle]
  have hhead : ∀ {x}, (s.thr t).pc.head ≠ some x := by
    intro x hx
    rw [hidle] at hx
    cases hx
  cases hstep with
  | call hpc hlt =>
    cases ha
    exact absurd hlt (Nat.not_lt.mpr ht)
  | block =>
    cases ha
    simpa [setThr] using hidle
  | store =>
    cases ha
    simpa [setThr] using hidle
  | idle =>
    cases ha
    simp [setThr]
  | inside hpc =>
    cases ha
    cases hidle.symm.trans hpc
  | real hpc =>
    cases ha
    cases hidle.symm.trans hpc
  | supervise => cases ha
  | enter hpc | pay hpc | skip hpc | leave hpc | log hpc =>
    cases ha
    exact absurd hpc hhead

theorem Pc.afterUnlock_of_unlocked {pc : Pc} (h : pc.unlocked) : pc.afterUnlock := by
  cases pc with
  | after call todo =>
    cases todo with
    | nil => exact h
    | cons => cases h
  | _ => cases h

/-- The hook after an unlock counts as inside the synchronisation. -/
theorem Pc.inSync_of_afterUnlock {pc : Pc} (h : pc.afterUnlock) : pc.inSync = true := by
  cases pc with
  | after call todo =>
    have hu : call.op.isUnlock := h
    simp [inSync, Call.isSync_of_isUnlock hu, hu]
  | _ => cases h

/-- What holds in every reachable state: what is left of a hook is all of it or plain, or it is the
hook after an unlock and has nothing left; only threads with a number run hooks; and the initial amounts
are 64-bit numbers other than zero. -/
structure Inv (cfg : Config) (s : State) : Prop where
  ok : ∀ t, ((s.thr t).pc).Ok cfg.log ∨ (s.thr t).pc.unlocked
  idle : ∀ t, MAX_NR_THREAD ≤ t → (s.thr t).pc = .idle
  init_pos : ∀ t < MAX_NR_THREAD, 0 < s.sched.initMoney t
  init_lt : ∀ t < MAX_NR_THREAD, s.sched.initMoney t < UInt64.size

theorem isRandMoney_range {c : SchedConfig} {x : ℕ} (h : IsRandMoney c x) : 0 < x ∧ x < UInt64.size := by
  obtain ⟨⟨hmin, -, -⟩, hge, hle⟩ := h
  have := c.maxMoney_le
  have : UInt64.size = 18446744073709551616 := rfl
  omega

theorem isInitMoney_range {c : SchedConfig} {money : ℕ → ℕ} (h : IsInitMoney c money) (t : ℕ)
    (ht : t < MAX_NR_THREAD) : 0 < money t ∧ money t < UInt64.size := by
  unfold IsInitMoney at h
  split_ifs at h with hr
  · exact isRandMoney_range (h t ht)
  · have ht' := h.2 t ht
    split_ifs at ht' with h0
    · exact isRandMoney_range ht'
    · rw [ht']
      refine ⟨Nat.pos_of_ne_zero h0, ?_⟩
      unfold initEntry
      rw [Int.toNat_lt (Int.emod_nonneg _ (by decide))]
      exact Int.emod_lt_of_pos _ (by decide)

theorem Inv.start {money : ℕ → ℕ} (h : IsInitMoney cfg.sched money) : Inv cfg (init money) where
  ok := fun _ => Or.inl trivial
  idle := fun _ _ => rfl
  init_pos := fun t ht => (isInitMoney_range h t ht).1
  init_lt := fun t ht => (isInitMoney_range h t ht).2

/-- What the supervisor does to a thread's money. -/
theorem supervise_eq {sched sched' : Sched} {drawn : ℕ → ℕ} {c : SchedConfig}
    (h : sched.supervise c drawn = some sched') (ht : t < MAX_NR_THREAD) :
    sched'.money t = sched.initMoney t ∧ sched'.epoch = sched.epoch + 1 ∧
      (sched'.initMoney = sched.initMoney ∨
        sched'.initMoney = drawn ∧ IsInitMoney c drawn) := by
  unfold Sched.supervise at h
  dsimp only at h
  split_ifs at h with hr hd
  · cases h
    refine ⟨by simp [Sched.startNewEpoch, Sched.resetThreadMoney, ht], rfl, Or.inr ⟨rfl, ?_⟩⟩
    rw [IsInitMoney, if_pos (Bool.and_eq_true_iff.mp hr).1]
    exact hd
  · cases h
    exact ⟨by simp [Sched.startNewEpoch, Sched.resetThreadMoney, ht], rfl, Or.inl rfl⟩

theorem Inv.step (hinv : Inv cfg s) (hstep : Stepped cfg s a s') : Inv cfg s' := by
  have hinit : ∀ t < MAX_NR_THREAD, 0 < s'.sched.initMoney t ∧ s'.sched.initMoney t < UInt64.size := by
    intro t ht
    by_cases ha : a.thread = none
    · cases hstep with
      | supervise h =>
        rcases (supervise_eq h ht).2.2 with heq | ⟨heq, hd⟩
        · rw [heq]
          exact ⟨hinv.init_pos t ht, hinv.init_lt t ht⟩
        · rw [heq]
          exact isInitMoney_range hd t ht
      | _ => cases ha
    · rw [(initMoney_of_step hstep ha).1]
      exact ⟨hinv.init_pos t ht, hinv.init_lt t ht⟩
  refine ⟨fun t => ?_, fun t ht => ?_, fun t ht => (hinit t ht).1, fun t ht => (hinit t ht).2⟩
  · by_cases ha : a.thread = some t
    · by_cases hu : (s.thr t).pc.afterUnlock
      · rcases afterUnlock_cases hstep ha hu (hinv.ok t) with ⟨h, -⟩ | ⟨-, h, -⟩ | ⟨-, h, -⟩
        · rw [h]
          exact hinv.ok t
        · exact Or.inr h
        · rw [h]
          exact Or.inl trivial
      · have hok := (hinv.ok t).resolve_right fun h => hu (Pc.afterUnlock_of_unlocked h)
        exact Or.inl (moved_of_own_step hstep ha hok fun _ => hu).2
    · rw [thr_of_ne hstep ha]
      exact hinv.ok t
  · exact idle_step hstep ht (hinv.idle t ht)

theorem inv_of_reachable (h : Reachable cfg s) : Inv cfg s := by
  obtain ⟨money, hm, hrun⟩ := h
  exact hrun.invariant (Inv.start hm) fun _ _ _ hinv _ hs => hinv.step (step_cases hs).2

/-! ### From one reset to the next -/

/-- The account of a thread that had the amount `init` and `p` passes at the last reset. -/
structure Budget (init p : ℕ) (x : Account) : Prop where
  le : p ≤ x.passes
  within : x.passes ≤ p + init
  /-- Outside synchronisations the money is what is left. -/
  money : x.inSync = false → x.money = p + init - x.passes
  /-- Inside it is marked. -/
  marked : x.inSync = true → x.money = (p + init - x.passes + MAX_MONEY) % UInt64.size
  /-- A thread that waits for an epoch that has come has something left. -/
  waiting : ∀ e, x.waiting = some e → e ≠ x.epoch → x.passes < p + init

/-- A thread at an open gate has something left. -/
theorem Budget.lt_of_isOpen {init p : ℕ} {x : Account} (h : Budget init p x) (hs : x.inSync = false)
    (hopen : x.IsOpen) : x.passes < p + init ∧ 0 < x.money := by
  have hm := h.money hs
  have hlt : x.passes < p + init := by
    unfold Account.IsOpen at hopen
    cases hw : x.waiting with
    | none =>
      rw [hw] at hopen
      dsimp only at hopen
      omega
    | some e =>
      rw [hw] at hopen
      exact h.waiting e hw hopen
  exact ⟨hlt, by omega⟩

theorem decCurrThreadMoney_eq {m : ℕ} (hm : 0 < m) : decCurrThreadMoney m = m - 1 := by
  unfold decCurrThreadMoney
  split_ifs <;> omega

/-- Leaving a synchronisation takes the mark away, also where adding it wrapped around. -/
theorem currThreadLeaveSync_mod {m : ℕ} (hm : m < UInt64.size) :
    currThreadLeaveSync ((m + MAX_MONEY) % UInt64.size) = m := by
  have hle : MAX_MONEY ≤ UInt64.size := by decide
  unfold currThreadLeaveSync
  rw [Nat.mod_add_mod, Nat.add_assoc, Nat.add_sub_cancel' hle, Nat.add_mod_right, Nat.mod_eq_of_lt hm]

/-- **One move** keeps a thread within its budget. -/
theorem Budget.move {init p : ℕ} {x y : Account} (h : Budget init p x) (hinit : init < UInt64.size)
    (hmove : x.Move y) : Budget init p y := by
  cases hmove with
  | still => exact h
  | block hs hm hw =>
    refine ⟨h.le, h.within, h.money, h.marked, fun e he hne => ?_⟩
    exact absurd (Option.some.inj he).symm hne
  | enter hs hopen =>
    obtain ⟨hlt, hpos⟩ := h.lt_of_isOpen hs hopen
    have hm := h.money hs
    have hle := h.le
    refine ⟨Nat.le_succ_of_le hle, hlt, fun hf => ?_, fun _ => ?_, fun e he => ?_⟩
    · cases hf
    · dsimp only
      rw [decCurrThreadMoney_eq hpos, hm, currThreadEnterSync, Nat.sub_sub]
    · cases he
  | pay hs hopen =>
    obtain ⟨hlt, hpos⟩ := h.lt_of_isOpen hs hopen
    have hm := h.money hs
    have hle := h.le
    refine ⟨Nat.le_succ_of_le hle, hlt, fun _ => ?_, fun hf => ?_, fun e he => ?_⟩
    · dsimp only
      rw [decCurrThreadMoney_eq hpos, hm, Nat.sub_sub]
    · exact absurd (hs.symm.trans hf) Bool.false_ne_true
    · cases he
  | leave hs =>
    have hm := h.marked hs
    have hle := h.le
    refine ⟨h.le, h.within, fun _ => ?_, fun hf => ?_, h.waiting⟩
    · dsimp only
      rw [hm]
      exact currThreadLeaveSync_mod (by omega)
    · cases hf

/-- `resetThreadMoney` has just given thread `t`, outside synchronisations, the amount `n`: at the start,
or by the supervisor. -/
inductive JustReset (cfg : Config) (t : ℕ) : ℕ → State → Prop where
  | init {money : ℕ → ℕ} (hm : IsInitMoney cfg.sched money) : JustReset cfg t (money t) (Machine.init money)
  | supervise {x y : State} {drawn : ℕ → ℕ} (hs : Reachable cfg x) (hout : (x.thr t).pc.inSync = false)
      (hsup : step cfg x (.supervise drawn) = some y) : JustReset cfg t (x.sched.initMoney t) y

/-- A thread has its whole budget after a reset. -/
theorem JustReset.budget {n : ℕ} (h : JustReset cfg t n s) (ht : t < MAX_NR_THREAD) :
    Budget n (s.passes t) (s.account t) ∧ ((s.thr t).pc).Ok cfg.log ∧ n < UInt64.size := by
  cases h with
  | @init money hm =>
    refine ⟨⟨le_rfl, Nat.le_add_right _ _, fun _ => ?_, fun hf => ?_, fun e he _ => ?_⟩, trivial,
      (isInitMoney_range hm t ht).2⟩
    · simp [State.account, Machine.init, Sched.init, Sched.resetThreadMoney, ht]
    · cases hf
    · cases he
  | @supervise s₀ _ drawn hs hout hsup =>
    have hinv := inv_of_reachable hs
    have hok := (hinv.ok t).resolve_right fun h => by
      rw [Pc.inSync_of_afterUnlock (Pc.afterUnlock_of_unlocked h)] at hout
      cases hout
    obtain ⟨-, hstep⟩ := step_cases hsup
    cases hstep with
    | @supervise _ sched hsched =>
      obtain ⟨hm, he, -⟩ := supervise_eq hsched ht
      refine ⟨⟨le_rfl, Nat.le_add_right _ _, fun _ => ?_, fun hf => ?_, fun e hw hne => ?_⟩, hok,
        hinv.init_lt t ht⟩
      · simp [State.account, hm]
      · exact absurd (hout.symm.trans hf) Bool.false_ne_true
      · exact Nat.lt_add_of_pos_right (hinv.init_pos t ht)

/-- **The budget law**: if `resetThreadMoney` gives thread `t` the amount `n` while it is outside
synchronisations, then in any run without another reset in which `t` does not run the hook after an
unlock, `t` passes the gates at most `n` times. -/
theorem passes_le_initMoney {n : ℕ} (ht : t < MAX_NR_THREAD) (hreset : JustReset cfg t n s₁)
    (hrun : Reach (step cfg) (fun s a => a.thread ≠ none ∧ SkipsAfterUnlock t s a) s₁ s₂) :
    s₂.passes t ≤ s₁.passes t + n := by
  obtain ⟨hbudget, hok, hlt⟩ := hreset.budget ht
  have hend : Budget n (s₁.passes t) (s₂.account t) ∧ ((s₂.thr t).pc).Ok cfg.log := by
    refine hrun.invariant (I := fun s => Budget n (s₁.passes t) (s.account t) ∧ ((s.thr t).pc).Ok cfg.log)
      ⟨hbudget, hok⟩ ?_
    intro s a s' ⟨hb, hok⟩ ⟨ha, hskip⟩ hstep
    obtain ⟨-, hstep⟩ := step_cases hstep
    by_cases hat : a.thread = some t
    · obtain ⟨hmove, hok'⟩ := moved_of_own_step hstep hat hok hskip
      exact ⟨hb.move hlt hmove, hok'⟩
    · obtain ⟨u, hu⟩ := Option.ne_none_iff_exists'.mp ha
      rw [account_of_ne hstep hu fun h => hat (by rw [hu, h]), thr_of_ne hstep hat]
      exact ⟨hb, hok⟩
  exact hend.1.within

/-- A thread locks a mutex after a reset. -/
theorem passes_le_initMoney_twoUnits :
    ∃ s : State, s.passes 0 = 1 ∧ s.passes 0 ≤ (init fun _ => 2).passes 0 + 2 := by
  have hrun : ((exec
      (restrict (step twoUnits) fun s a => a.thread ≠ none ∧ SkipsAfterUnlock 0 s a) (init fun _ => 2)
      [.call 0 (plainCall (.mutexLock 7)), .exec 0, .ret 0, .real 0 0, .exec 0, .exec 0, .store 0, .ret 0]).map fun s => s.passes 0) = some 1 := by
    decide +kernel
  obtain ⟨s₂, hs₂, hp⟩ := Option.map_eq_some_iff.mp hrun
  exact ⟨s₂, hp, passes_le_initMoney (by decide) (.init isInitMoney_twoUnits) (Reach.of_exec hs₂)⟩

/-- **After an unlock** a thread has more: here it passes three gates with two units. -/
theorem unlock_overspends :
    ¬ ∀ (cfg : Config) (t n : ℕ) (s₁ s₂ : State), t < MAX_NR_THREAD → JustReset cfg t n s₁ →
      Reach (step cfg) (fun _ a => a.thread ≠ none) s₁ s₂ → s₂.passes t ≤ s₁.passes t + n := by
  intro h
  have hrun : ((exec (restrict (step twoUnits) fun _ a => a.thread ≠ none) (init fun _ => 2)
      [.call 0 (plainCall (.mutexUnlock 7)), .exec 0, .exec 0, .store 0, .ret 0, .real 0 0, .exec 0, .ret 0,
        .call 0 (plainCall (.mutexLock 7)), .exec 0]).map fun s => s.passes 0) =
        some 3 := by
    decide +kernel
  obtain ⟨s₂, hs₂, hp⟩ := Option.map_eq_some_iff.mp hrun
  have := h twoUnits 0 2 _ s₂ (by decide) (.init isInitMoney_twoUnits) (Reach.of_exec hs₂)
  rw [hp] at this
  exact absurd this (by decide)

end Schnauzer
