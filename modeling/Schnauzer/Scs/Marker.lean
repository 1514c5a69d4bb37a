import Schnauzer.Scs.Budget

/-!
# The mark on the money

`MAX_MONEY` is added to the money of a thread that enters a synchronisation and taken away when
it leaves. A reset overwrites it.

## What is proved

* `marked_iff_keepsMarker` — in runs whose every step satisfies `KeepsMarker` the mark is right and
  no subtraction wraps around, and the first other step makes it wrong; `reset_loses_marker` is a run
  with a reset while a thread takes a lock.
-/

namespace Schnauzer

open Machine MoneyMngr Runs

variable {cfg : Config} {s s' : State} {a : Action} {t : ℕ}

/-- The money that threads are given is below the mark. -/
def AmountsLow (cfg : SchedConfig) : Prop :=
  ∀ money, IsInitMoney cfg money → ∀ t < MAX_NR_THREAD, money t < MAX_MONEY

/-- The mark is right. -/
structure Marked (s : State) : Prop where
  /-- The threads inside a synchronisation have it, and no others. -/
  iff : ∀ t < MAX_NR_THREAD, isMoneyInSync (s.sched.money t) = (s.thr t).pc.inSync
  /-- `currThreadLeaveSync` takes it from those that have it. -/
  leave : ∀ t call next, (s.thr t).pc.head = some (call, .scs .afterSyncOperation, next) →
    MAX_MONEY ≤ s.sched.money t

/-- The step is not a reset while a thread is inside a synchronisation, and not the end of the hook
after an unlock. -/
def KeepsMarker (s : State) (a : Action) : Prop :=
  (a.thread = none → ∀ t < MAX_NR_THREAD, (s.thr t).pc.inSync = false) ∧
    ∀ t, a = .ret t → ¬ (s.thr t).pc.afterUnlock

instance (s : State) (a : Action) : Decidable (KeepsMarker s a) :=
  match a with
  | .supervise _ => decidable_of_iff (∀ t < MAX_NR_THREAD, (s.thr t).pc.inSync = false)
      ⟨fun h => ⟨fun _ => h, fun _ he => nomatch he⟩, fun h => h.1 rfl⟩
  | .ret u => decidable_of_iff (¬ (s.thr u).pc.afterUnlock)
      ⟨fun h => ⟨(nomatch ·), fun t he => by cases he; exact h⟩, fun h => h.2 u rfl⟩
  | .call _ _ | .exec _ | .store _ | .real _ _ =>
    isTrue ⟨(nomatch ·), fun _ he => nomatch he⟩

/-- The range of a thread's money, by the place of the thread. -/
structure InRange (pc : Pc) (money : ℕ) : Prop where
  out : pc.inSync = false → money < MAX_MONEY
  inside : pc.inSync = true → MAX_MONEY ≤ money
  /-- The hook after an unlock adds the mark again. -/
  le : money < 2 * MAX_MONEY ∨ pc.unlocked ∧ money < 3 * MAX_MONEY

/-- What runs of such steps keep. -/
structure MarkerInv (cfg : Config) (s : State) : Prop where
  inv : Inv cfg s
  low : ∀ t < MAX_NR_THREAD, s.sched.initMoney t < MAX_MONEY
  range : ∀ t < MAX_NR_THREAD, InRange (s.thr t).pc (s.sched.money t)

theorem decCurrThreadMoney_le (m : ℕ) : decCurrThreadMoney m ≤ m ∧ m ≤ decCurrThreadMoney m + 1 := by
  unfold decCurrThreadMoney
  split_ifs <;> omega

/-- Below three marks nothing wraps around. -/
theorem currThreadEnterSync_eq {m : ℕ} (hm : m < 3 * MAX_MONEY) :
    currThreadEnterSync m = m + MAX_MONEY := by
  have hlt : 4 * MAX_MONEY < UInt64.size := by decide
  exact Nat.mod_eq_of_lt (by omega)

theorem currThreadLeaveSync_eq {m : ℕ} (hlo : MAX_MONEY ≤ m) (hm : m < 3 * MAX_MONEY) :
    currThreadLeaveSync m = m - MAX_MONEY := by
  have hlt : 4 * MAX_MONEY < UInt64.size := by decide
  rw [← currThreadLeaveSync_mod (m := m - MAX_MONEY) (by omega), Nat.sub_add_cancel hlo,
    Nat.mod_eq_of_lt (by omega)]

/-- **One move** keeps the range, outside the hook after an unlock. -/
theorem InRange.move {x y : Account} {pc pc' : Pc} (hmove : x.Move y) (hpc : x.inSync = pc.inSync)
    (hpc' : y.inSync = pc'.inSync) (hu : ¬ pc.unlocked) (h : InRange pc x.money) :
    InRange pc' y.money := by
  have hlt : x.money < 2 * MAX_MONEY := h.le.resolve_right fun hle => hu hle.1
  cases hmove with
  | still =>
    rw [hpc] at hpc'
    exact ⟨hpc' ▸ h.out, hpc' ▸ h.inside, Or.inl hlt⟩
  | block =>
    rw [hpc] at hpc'
    exact ⟨hpc' ▸ h.out, hpc' ▸ h.inside, Or.inl hlt⟩
  | enter hs =>
    have hm := h.out (hpc ▸ hs)
    have hd := decCurrThreadMoney_le x.money
    dsimp only at hpc' ⊢
    rw [currThreadEnterSync_eq (by omega)]
    refine ⟨fun hf => ?_, fun _ => by omega, Or.inl (by omega)⟩
    rw [← hpc'] at hf
    cases hf
  | pay hs =>
    have hm := h.out (hpc ▸ hs)
    have hd := decCurrThreadMoney_le x.money
    dsimp only at hpc' ⊢
    refine ⟨fun _ => by omega, fun hf => ?_, Or.inl (by omega)⟩
    rw [← hpc', hs] at hf
    cases hf
  | leave hs =>
    have hm := h.inside (hpc ▸ hs)
    dsimp only at hpc' ⊢
    rw [currThreadLeaveSync_eq hm (by omega)]
    refine ⟨fun _ => by omega, fun hf => ?_, Or.inl (by omega)⟩
    rw [← hpc'] at hf
    cases hf

theorem MarkerInv.start {money : ℕ → ℕ} (hlow : AmountsLow cfg.sched) (hm : IsInitMoney cfg.sched money) :
    MarkerInv cfg (init money) := by
  refine ⟨Inv.start hm, hlow money hm, fun t ht => ?_⟩
  have := hlow money hm t ht
  have hmoney : (init money).sched.money t = money t := by
    simp [Machine.init, Sched.init, Sched.resetThreadMoney, ht]
  rw [hmoney]
  refine ⟨fun _ => this, fun hf => ?_, Or.inl (by omega)⟩
  cases hf

theorem MarkerInv.step (hlow : AmountsLow cfg.sched) (h : MarkerInv cfg s) (ha : KeepsMarker s a)
    (hstep : Stepped cfg s a s') : MarkerInv cfg s' := by
  have hinv := h.inv.step hstep
  by_cases hsup : a.thread = none
  · cases hstep with
    | supervise hsched =>
      have hlow' : ∀ t < MAX_NR_THREAD, _ < MAX_MONEY := fun t ht => by
        rcases (supervise_eq hsched ht).2.2 with heq | ⟨heq, hd⟩
        · exact (congrFun heq t).trans_lt (h.low t ht)
        · exact (congrFun heq t).trans_lt (hlow _ hd t ht)
      refine ⟨hinv, hlow', fun t ht => ?_⟩
      have hout := ha.1 rfl t ht
      have hmoney := (supervise_eq hsched ht).1
      have hl := h.low t ht
      refine ⟨fun _ => hmoney.trans_lt hl, fun hin => ?_, Or.inl ?_⟩
      · exact absurd (hout.symm.trans hin) Bool.false_ne_true
      · exact hmoney.trans_lt (by omega)
    | _ => cases hsup
  · refine ⟨hinv, fun t ht => ?_, fun t ht => ?_⟩
    · rw [(initMoney_of_step hstep hsup).1]
      exact h.low t ht
    · obtain ⟨u, hu⟩ := Option.ne_none_iff_exists'.mp hsup
      have hr := h.range t ht
      by_cases htu : t = u
      swap
      · have hacc := account_of_ne hstep hu htu
        rw [thr_of_ne hstep (by rw [hu]; simpa using Ne.symm htu)]
        rw [show s'.sched.money t = s.sched.money t from congrArg Account.money hacc]
        exact hr
      · subst htu
        by_cases haft : (s.thr t).pc.afterUnlock
        · rcases afterUnlock_cases hstep hu haft (h.inv.ok t) with ⟨hpc, hmn⟩ | ⟨hno, hun, hmn⟩ | ⟨hret, -⟩
          · rw [hpc, hmn]
            exact hr
          · have hin := hr.inside (Pc.inSync_of_afterUnlock haft)
            have hlt : s.sched.money t < 2 * MAX_MONEY := hr.le.resolve_right fun hle => hno hle.1
            have hd := decCurrThreadMoney_le (s.sched.money t)
            have hin' := Pc.inSync_of_afterUnlock (Pc.afterUnlock_of_unlocked hun)
            rw [hmn, currThreadEnterSync_eq (by omega)]
            refine ⟨fun hf => ?_, fun _ => by omega, Or.inr ⟨hun, by omega⟩⟩
            exact absurd (hf.symm.trans hin') Bool.false_ne_true
          · exact absurd haft (ha.2 t hret)
        · have hnu : ¬ (s.thr t).pc.unlocked := fun h => haft (Pc.afterUnlock_of_unlocked h)
          have hok := (h.inv.ok t).resolve_right hnu
          exact InRange.move (moved_of_own_step hstep hu hok fun _ => haft).1 rfl rfl hnu hr

theorem MarkerInv.marked (h : MarkerInv cfg s) : Marked s := by
  refine ⟨fun t ht => ?_, fun t call next hpc => ?_⟩
  · have hr := h.range t ht
    cases hs : (s.thr t).pc.inSync with
    | false => simpa [isMoneyInSync] using hr.out hs
    | true => simpa [isMoneyInSync] using hr.inside hs
  · have ht : t < MAX_NR_THREAD := by
      by_contra hge
      rw [h.inv.idle t (not_lt.mp hge)] at hpc
      cases hpc
    apply (h.range t ht).inside
    rcases h.inv.ok t with hok | hu
    · exact (hok.leave hpc).1
    · exact Pc.inSync_of_afterUnlock (Pc.afterUnlock_of_unlocked hu)

/-- A reset takes the mark from a thread inside a synchronisation, and a thread takes it out of the hook
after an unlock. -/
theorem MarkerInv.not_marked (h : MarkerInv cfg s) (ha : ¬ KeepsMarker s a) (hstep : Stepped cfg s a s') :
    ¬ Marked s' := by
  intro hmark
  refine ha ⟨fun hsup t ht => ?_, fun t hret haft => ?_⟩
  · cases hstep with
    | supervise hsched =>
      by_contra hin
      have hmoney := (supervise_eq hsched ht).1
      have hlow := h.low t ht
      have hiff := hmark.iff t ht
      simp only [Bool.not_eq_false] at hin
      simp only [isMoneyInSync, hmoney, hin, decide_eq_true_eq] at hiff
      omega
    | _ => cases hsup
  · subst hret
    have ht : t < MAX_NR_THREAD := by
      by_contra hge
      rw [h.inv.idle t (not_lt.mp hge)] at haft
      cases haft
    have hin := (h.range t ht).inside (Pc.inSync_of_afterUnlock haft)
    have hiff := hmark.iff t ht
    cases hstep with
    | inside hpc =>
      rw [hpc] at haft
      cases haft
    | idle hpc =>
      have hlt : ¬ s.sched.money t ≥ MAX_MONEY := by
        simpa [setThr, Pc.inSync, isMoneyInSync] using hiff
      exact hlt hin

/-- **The mark**: in a run of steps that satisfy `KeepsMarker`, the money of a thread is marked exactly
while the thread is inside a synchronisation, and is marked when the mark is taken away; and this holds
after the next step exactly when that step satisfies `KeepsMarker` too. -/
theorem marked_iff_keepsMarker {money : ℕ → ℕ} (hlow : AmountsLow cfg.sched)
    (hm : IsInitMoney cfg.sched money) (hrun : Reach (step cfg) KeepsMarker (init money) s) :
    Marked s ∧ ∀ a s', step cfg s a = some s' → (Marked s' ↔ KeepsMarker s a) := by
  have hinv : MarkerInv cfg s :=
    hrun.invariant (MarkerInv.start hlow hm) fun _ _ _ h ha hs => h.step hlow ha (step_cases hs).2
  refine ⟨hinv.marked, fun a s' hs => ⟨fun hmark => ?_, fun ha => ?_⟩⟩
  · by_contra ha
    exact hinv.not_marked ha (step_cases hs).2 hmark
  · exact (hinv.step hlow ha (step_cases hs).2).marked

theorem amountsLow_twoUnits : AmountsLow twoUnits.sched := by
  intro money hm t ht
  have h := (show _ ∧ _ from hm).2 t ht
  have h2 : ∀ t < MAX_NR_THREAD, initEntry twoUnits.sched t = 2 := by decide
  rw [h2 t ht, if_neg (by decide)] at h
  rw [h]
  decide

/-- A reset, and then a thread that waits for a lock. -/
theorem marked_iff_keepsMarker_twoUnits :
    ∃ s : State, (s.thr 0).pc.inSync = true ∧ Marked s ∧
      ∀ a s', step twoUnits s a = some s' → (Marked s' ↔ KeepsMarker s a) := by
  have hrun : ((exec (restrict (step twoUnits) KeepsMarker) (init fun _ => 2)
      [.supervise fun _ => 0, .call 0 (plainCall (.mutexLock 7)), .exec 0, .ret 0]).map fun s =>
        (s.thr 0).pc.inSync) = some true := by
    decide +kernel
  obtain ⟨s, hs, hin⟩ := Option.map_eq_some_iff.mp hrun
  exact ⟨s, hin, marked_iff_keepsMarker amountsLow_twoUnits isInitMoney_twoUnits (Reach.of_exec hs)⟩

/-- **A reset** while a thread waits for a lock: the thread has the lock and takes away a mark that is
not there. -/
theorem reset_loses_marker :
    ¬ ∀ (cfg : Config) (money : ℕ → ℕ) (s : State), AmountsLow cfg.sched → IsInitMoney cfg.sched money →
      Reach (step cfg) (fun _ _ => True) (init money) s → Marked s := by
  intro h
  have hrun : ((exec (restrict (step twoUnits) fun _ _ => True) (init fun _ => 2)
      [.call 0 (plainCall (.mutexLock 7)), .exec 0, .ret 0, .supervise fun _ => 0, .real 0 0]).map fun s =>
        ((s.thr 0).pc.head.map fun x => x.2.1, s.sched.money 0)) =
      some (some (.scs .afterSyncOperation), 2) := by
    decide +kernel
  obtain ⟨s, hs, hp⟩ := Option.map_eq_some_iff.mp hrun
  obtain ⟨hhead, hmoney⟩ := Prod.mk.inj hp
  obtain ⟨⟨call, stmt, next⟩, hx, rfl⟩ := Option.map_eq_some_iff.mp hhead
  have hmark := h twoUnits _ s amountsLow_twoUnits isInitMoney_twoUnits (Reach.of_exec hs)
  have hle := hmark.leave 0 call next hx
  rw [hmoney] at hle
  exact absurd hle (by decide)

end Schnauzer
