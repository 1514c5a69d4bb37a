import Schnauzer.Scs.Machine
import Schnauzer.Scs.Monitor

/-!
# The gate

## What is proved

* `decrement_has_money` — in no interleaving does a thread pay without money, and a thread that has
  found none pays only when a whole `startNewEpoch` has run since.
-/

namespace Schnauzer

open Runs

/-- The thread has the mutex. -/
def Place.holds : Place → Bool
  | .out | .lock _ | .asleep _ _ | .woken _ _ => false
  | _ => true

/-- The `last_epoch` of a thread in `blockCurrThread`. -/
def Place.lastEpoch : Place → Option ℕ
  | .wait _ e | .asleep _ e | .woken _ e | .test _ e => some e
  | _ => none

/-- The thread is going to pay. -/
def Place.paying : Place → Bool
  | .dec _ => true
  | _ => false

/-- The thread is going to look at its money. -/
def Place.checking : Place → Bool
  | .check _ => true
  | _ => false

/-- The supervisor has the mutex. -/
def Sup.holds : Sup → Bool
  | .out | .lock => false
  | _ => true

namespace Monitor

variable {cfg : SchedConfig} {s s' : Monitor} {a : Action} {t : ℕ} {p p' : Place}

@[simp] theorem goto_place_self : (s.goto t p).place t = p := Function.update_self ..

theorem goto_place_of_ne {u : ℕ} (h : u ≠ t) : (s.goto t p).place u = s.place u :=
  Function.update_of_ne h ..

@[simp] theorem goto_sched : (s.goto t p).sched = s.sched := rfl
@[simp] theorem goto_mutex : (s.goto t p).mutex = s.mutex := rfl
@[simp] theorem goto_sup : (s.goto t p).sup = s.sup := rfl

@[simp] theorem holds_wakeUp : (wakeUp p).holds = p.holds := by cases p <;> rfl

@[simp] theorem lastEpoch_wakeUp : (wakeUp p).lastEpoch = p.lastEpoch := by cases p <;> rfl

/-! ### The mutex -/

/-- The mutex belongs to whoever is past its lock. -/
structure Owned (s : Monitor) : Prop where
  /-- The threads. -/
  thread : ∀ t, (s.place t).holds ↔ s.mutex = some (.thread t)
  /-- The supervisor. -/
  sup : s.sup.holds ↔ s.mutex = some .supervisor

theorem owned_init (initMoney : ℕ → ℕ) : Owned (init initMoney) :=
  ⟨fun _ => by simp [init, Place.holds], by simp [init, Sup.holds]⟩

theorem Moves.holds (h : Moves s t a p p') : p'.holds = p.holds := by cases h <;> rfl

theorem Takes.holds (h : Takes p p') : p.holds = false ∧ p'.holds := by
  cases h with
  | lock => rename_i c; cases c <;> exact ⟨rfl, rfl⟩
  | woken => exact ⟨rfl, rfl⟩

theorem Gives.holds (h : Gives p p') : p.holds ∧ p'.holds = false := by cases h <;> exact ⟨rfl, rfl⟩

theorem Pays.holds {m m' : ℕ} (h : Pays m p p' m') : p.holds ∧ p'.holds := by
  cases h with
  | dec => rename_i c; cases c <;> exact ⟨rfl, rfl⟩
  | enter => exact ⟨rfl, rfl⟩
  | leave => exact ⟨rfl, rfl⟩

/-- A thread that goes to a place where it has the mutex if and only if it had it before. -/
theorem Owned.goto (h : Owned s) (hp : p.holds = (s.place t).holds) : Owned (s.goto t p) := by
  refine ⟨fun u => ?_, h.sup⟩
  by_cases hu : u = t
  · subst hu
    rw [goto_place_self, hp]
    exact h.thread u
  · rw [goto_place_of_ne hu]
    exact h.thread u

/-- A thread that takes the mutex, which is free, or gives its own up. -/
theorem Owned.handOver (h : Owned s) {mutex : Option Party} (hold : s.mutex = none ∨ s.mutex = some (.thread t))
    (hnew : mutex = some (.thread t) ∧ p.holds ∨ mutex = none ∧ p.holds = false) : Owned { s.goto t p with mutex } := by
  refine ⟨fun u => ?_, ?_⟩
  · by_cases hu : u = t
    · subst hu
      obtain ⟨rfl, hp⟩ | ⟨rfl, hp⟩ := hnew <;> simp [hp]
    · have hnot : ¬ (s.place u).holds := by
        rw [h.thread u]
        obtain hold | hold := hold <;> simp [hold, Ne.symm hu]
      obtain ⟨rfl, -⟩ | ⟨rfl, -⟩ := hnew <;> simp [goto_place_of_ne hu, hnot, Ne.symm hu]
  · have hnot : ¬ s.sup.holds := by
      rw [h.sup]
      obtain hold | hold := hold <;> simp [hold]
    obtain ⟨rfl, -⟩ | ⟨rfl, -⟩ := hnew <;> simp [hnot]

theorem owned_step (hs : Stepped cfg s a s') (h : Owned s) : Owned s' := by
  have hsup : ∀ {q : Sup}, s.sup = q → q.holds → s.mutex = some .supervisor :=
    fun hq hh => h.sup.mp (hq ▸ hh)
  cases hs with
  | skip => exact h
  | move hp hm => exact h.goto (by rw [hm.holds, hp])
  | pay hp hm =>
    have := h.goto (t := _) (p := _) ((hm.holds.2.trans hm.holds.1.symm).trans (by rw [hp]))
    exact ⟨this.thread, this.sup⟩
  | take hp hm hfree => exact h.handOver (Or.inl hfree) (Or.inl ⟨rfl, hm.holds.2⟩)
  | @give t p p' hp hm =>
    exact h.handOver (Or.inr ((h.thread t).mp (hp ▸ hm.holds.1))) (Or.inr ⟨rfl, hm.holds.2⟩)
  | begin hp =>
    have hnot := h.sup
    rw [hp] at hnot
    exact ⟨h.thread, hnot⟩
  | lock hp hfree =>
    refine ⟨fun u => ?_, by simp [Sup.holds]⟩
    have hnot := h.thread u
    rw [hfree] at hnot
    simpa using hnot
  | reset hp | resetDone hp | newEpoch hp | redraw hp | keep hp | draw hp | drawDone hp =>
    exact ⟨h.thread, by simpa [Sup.holds] using hsup hp rfl⟩
  | broadcast hp =>
    exact ⟨fun u => by simpa using h.thread u, by simpa [Sup.holds] using hsup hp rfl⟩
  | unlock hp =>
    refine ⟨fun u => ?_, by simp [Sup.holds]⟩
    have hnot := h.thread u
    rw [hsup hp rfl] at hnot
    simpa using hnot

/-! ### The money -/

/-- Where each thread and the supervisor can count on money. -/
structure Paid (s : Monitor) : Prop where
  /-- `MoneyMngr::init` and `randomInitThreadMoney` leave no zeros. -/
  initMoney : ∀ t < MAX_NR_THREAD, 0 < s.sched.initMoney t
  /-- `getCurrTid`. -/
  tid : ∀ t, s.place t ≠ .out → t < MAX_NR_THREAD
  /-- A thread that is going to pay. -/
  dec : ∀ t c, s.place t = .dec c → 0 < s.sched.money t
  /-- A thread whose epoch is over. -/
  waited : ∀ t e, (s.place t).lastEpoch = some e → e ≠ s.sched.epoch → 0 < s.sched.money t
  /-- The threads that a reset has visited. -/
  reset : ∀ i, s.sup = .reset i → ∀ t < i, t < MAX_NR_THREAD → 0 < s.sched.money t
  /-- All of them. -/
  newEpoch : s.sup = .newEpoch → ∀ t < MAX_NR_THREAD, 0 < s.sched.money t

theorem initMoney_pos {money : ℕ → ℕ} (h : MoneyMngr.IsInitMoney cfg money) (ht : t < MAX_NR_THREAD) :
    0 < money t := by
  unfold MoneyMngr.IsInitMoney at h
  split_ifs at h
  · obtain ⟨⟨hmin, -⟩, hle, -⟩ := h t ht
    exact hmin.trans_le hle
  · have ht := h.2 t ht
    split_ifs at ht with hz
    · obtain ⟨⟨hmin, -⟩, hle, -⟩ := ht
      exact hmin.trans_le hle
    · exact ht ▸ Nat.pos_of_ne_zero hz

theorem paid_init {money : ℕ → ℕ} (h : MoneyMngr.IsInitMoney cfg money) : Paid (init money) where
  initMoney _ ht := initMoney_pos h ht
  tid _ ht := absurd rfl ht
  dec _ _ ht := by simp [init] at ht
  waited _ _ ht := by simp [init, Place.lastEpoch] at ht
  reset _ hs := by simp [init] at hs
  newEpoch hs := by simp [init] at hs

/-- Where a thread goes that pays or remembers an epoch. -/
theorem Moves.lastEpoch {e : ℕ} (h : Moves s t a p p') (he : p'.lastEpoch = some e) :
    p.lastEpoch = some e ∨ e = s.sched.epoch := by
  cases h with
  | call => cases he
  | poor => cases he
  | rich => cases he
  | pass => cases he
  | block => exact Or.inr (Option.some.inj he).symm
  | wake => exact Or.inl he
  | again => exact Or.inl he

/-- A thread goes on to pay only with money. -/
theorem Paid.dec_of_moves {c : ScsCall} (h : Paid s) (hp : s.place t = p) (hm : Moves s t a p (.dec c)) :
    0 < s.sched.money t := by
  generalize hq : Place.dec c = q at hm
  cases hm with
  | rich hne => exact Nat.pos_of_ne_zero hne
  | pass he => exact h.waited t _ (by rw [hp]; rfl) he
  | _ => cases hq

/-- A step of a thread that keeps the money and the epochs. -/
theorem Paid.goto (h : Paid s) {mutex : Option Party} (ht : t < MAX_NR_THREAD)
    (hdec : ∀ c, p = .dec c → 0 < s.sched.money t)
    (hwait : ∀ e, p.lastEpoch = some e → e ≠ s.sched.epoch → 0 < s.sched.money t) :
    Paid { s.goto t p with mutex } := by
  refine ⟨h.initMoney, fun u hu => ?_, fun u c hu => ?_, fun u e hu he => ?_, h.reset, h.newEpoch⟩
  · by_cases hut : u = t
    · exact hut ▸ ht
    · exact h.tid u (by simpa [goto_place_of_ne hut] using hu)
  · by_cases hut : u = t
    · subst hut
      exact hdec c (by simpa using hu)
    · exact h.dec u c (by simpa [goto_place_of_ne hut] using hu)
  · by_cases hut : u = t
    · subst hut
      exact hwait e (by simpa using hu) he
    · exact h.waited u e (by simpa [goto_place_of_ne hut] using hu) he

/-- A thread that takes the mutex or gives it up. -/
theorem Paid.handOver (h : Paid s) {mutex : Option Party} (hp : s.place t = p) (hout : p ≠ .out)
    (hnext : (∀ e, p'.lastEpoch = some e → p.lastEpoch = some e) ∧ ∀ c, p' ≠ .dec c) :
    Paid { s.goto t p' with mutex } :=
  h.goto (h.tid t (hp ▸ hout)) (fun c hc => absurd hc (hnext.2 c)) fun e he hne =>
    h.waited t e (hp ▸ hnext.1 e he) hne

/-- A step that only raises money. -/
theorem Paid.setMoney_pos (h : Paid s) {u m : ℕ} (hm : 0 < m) : Paid { s with sched := s.sched.setMoney u m } := by
  have hle : ∀ t, 0 < s.sched.money t → 0 < Function.update s.sched.money u m t := by
    intro t ht
    by_cases hut : t = u
    · subst hut
      rwa [Function.update_self]
    · rwa [Function.update_of_ne hut]
  exact
    { initMoney := h.initMoney
      tid := h.tid
      dec := fun t c ht => hle t (h.dec t c ht)
      waited := fun t e ht he => hle t (h.waited t e ht he)
      reset := fun i hi t ht htid => hle t (h.reset i hi t ht htid)
      newEpoch := fun hs t htid => hle t (h.newEpoch hs t htid) }

theorem Pays.next {m m' : ℕ} (h : Pays m p p' m') : p'.lastEpoch = none ∧ ∀ c, p' ≠ .dec c := by
  cases h with
  | @dec c => cases c <;> exact ⟨rfl, by simp [paid]⟩
  | enter => exact ⟨rfl, by simp⟩
  | leave => exact ⟨rfl, by simp⟩

theorem Takes.next (h : Takes p p') :
    (∀ e, p'.lastEpoch = some e → p.lastEpoch = some e) ∧ ∀ c, p' ≠ .dec c := by
  cases h with
  | @lock c => cases c <;> exact ⟨by simp [entry, Place.lastEpoch], by simp [entry]⟩
  | woken => exact ⟨fun _ he => he, by simp⟩

theorem Gives.next (h : Gives p p') :
    (∀ e, p'.lastEpoch = some e → p.lastEpoch = some e) ∧ ∀ c, p' ≠ .dec c := by
  cases h with
  | wait => exact ⟨fun _ he => he, by simp⟩
  | unlock => exact ⟨fun _ he => (by cases he), by simp⟩

/-- No thread and the supervisor have the mutex at once. -/
theorem Owned.not_both (h : Owned s) (ht : (s.place t).holds) : s.sup.holds = false := by
  by_contra hsup
  rw [Bool.not_eq_false, h.sup, (h.thread t).mp ht] at hsup
  cases hsup

/-- A thread pays under the mutex, so that no reset is under way. -/
theorem paid_pay (ho : Owned s) (h : Paid s) {m : ℕ} (hp : s.place t = p) (hm : Pays (s.sched.money t) p p' m) :
    Paid { s.goto t p' with sched := s.sched.setMoney t m } := by
  have hsup := ho.not_both (hp ▸ hm.holds.1 : (s.place t).holds)
  have hne : ∀ {u q}, (s.goto t p').place u = q → (q.lastEpoch ≠ none ∨ ∃ c, q = .dec c) → u ≠ t := by
    rintro u q hq hor rfl
    rw [goto_place_self] at hq
    subst hq
    rcases hor with hl | ⟨c, hc⟩
    · exact hl hm.next.1
    · exact hm.next.2 c hc
  refine ⟨h.initMoney, fun u hu => ?_, fun u c hu => ?_, fun u e hu he => ?_, fun i hi => ?_, fun hs => ?_⟩
  · by_cases hut : u = t
    · subst hut
      apply h.tid u
      intro hout
      have hh := hm.holds.1
      rw [← hp, hout] at hh
      cases hh
    · exact h.tid u (by simpa [goto_place_of_ne hut] using hu)
  · have hut := hne hu (Or.inr ⟨c, rfl⟩)
    have := h.dec u c (by simpa [goto_place_of_ne hut] using hu)
    simpa [Sched.setMoney, Function.update_of_ne hut] using this
  · have hut := hne rfl (Or.inl (by rw [hu]; exact Option.some_ne_none e))
    have := h.waited u e (by simpa [goto_place_of_ne hut] using hu) he
    simpa [Sched.setMoney, Function.update_of_ne hut] using this
  · rw [show s.sup = _ from hi] at hsup
    cases hsup
  · rw [show s.sup = _ from hs] at hsup
    cases hsup

theorem paid_step (hs : Stepped cfg s a s') (ho : Owned s) (h : Paid s) : Paid s' := by
  cases hs with
  | skip => exact h
  | @move a t p p' hp hm =>
    refine h.goto ?_ (fun c hc => ?_) (fun e he hne => ?_)
    · cases hm with
      | call ht => exact ht
      | _ => exact h.tid t (by simp [hp])
    · subst hc
      exact h.dec_of_moves hp hm
    · rcases hm.lastEpoch he with hold | hnow
      · exact h.waited t e (hp ▸ hold) hne
      · exact absurd hnow hne
  | take hp hm hfree => exact h.handOver hp (by rintro rfl; cases hm) hm.next
  | give hp hm => exact h.handOver hp (by rintro rfl; cases hm) hm.next
  | pay hp hm => exact paid_pay ho h hp hm
  | begin hp => exact { h with reset := nofun, newEpoch := nofun }
  | lock hp hfree =>
    refine { h with reset := ?_, newEpoch := nofun }
    rintro i ⟨⟩ t ht
    cases ht
  | @reset i hp hi =>
    have hpos := h.initMoney i hi
    have h' := h.setMoney_pos (u := i) hpos
    refine { h' with reset := ?_, newEpoch := nofun }
    rintro j ⟨⟩ t ht htid
    by_cases hti : t = i
    · subst hti
      simpa [Sched.setMoney] using hpos
    · have := h.reset i hp t (by omega) htid
      simpa [Sched.setMoney, Function.update_of_ne hti] using this
  | @resetDone i hp hi =>
    exact { h with reset := nofun, newEpoch := fun _ t ht => h.reset i hp t (ht.trans_le hi) ht }
  | newEpoch hp =>
    have hall := h.newEpoch hp
    refine { h with waited := fun t e he hne => hall t (h.tid t ?_), reset := nofun, newEpoch := nofun }
    rintro hout
    rw [show s.place t = _ from hout] at he
    cases he
  | broadcast hp =>
    refine
      { initMoney := h.initMoney
        tid := fun t ht => h.tid t ?_
        dec := fun t c ht => h.dec t c ?_
        waited := fun t e ht he => ?_
        reset := nofun
        newEpoch := nofun }
    · rintro hout
      exact ht (by simp [hout, wakeUp])
    · cases hpl : s.place t <;> simp_all [wakeUp]
    · exact h.waited t e (by simpa using ht) he
  | redraw hp hr hn => exact { h with reset := nofun, newEpoch := nofun }
  | keep hp hn => exact { h with reset := nofun, newEpoch := nofun }
  | @draw i x hp hi hx =>
    refine { h with initMoney := fun t ht => ?_, reset := nofun, newEpoch := nofun }
    by_cases hti : t = i
    · subst hti
      obtain ⟨⟨hmin, -⟩, hle, -⟩ := hx
      simpa using hmin.trans_le hle
    · simpa [Function.update_of_ne hti] using h.initMoney t ht
  | drawDone hp hi => exact { h with reset := nofun, newEpoch := nofun }
  | unlock hp => exact { h with reset := nofun, newEpoch := nofun }

/-! ### Runs -/

/-- The steps of `startNewEpoch`. -/
def startNewEpoch : List Action :=
  (List.range MAX_NR_THREAD).map (fun i => .supervise (.reset i)) ++
    [.supervise .newEpoch, .supervise .broadcast]

/-- Those that the supervisor has behind it. -/
def done : Sup → List Action
  | .reset i => (List.range (min i MAX_NR_THREAD)).map fun i => .supervise (.reset i)
  | .newEpoch => (List.range MAX_NR_THREAD).map fun i => .supervise (.reset i)
  | .broadcast => (List.range MAX_NR_THREAD).map (fun i => .supervise (.reset i)) ++ [.supervise .newEpoch]
  | _ => []

/-- A thread is in `blockCurrThread` since the epoch `e`. -/
def Blocked (e : ℕ) (p : Place) : Prop := (∃ c, p = .block c) ∨ p.lastEpoch = some e

/-- Thread `t` is blocked since the epoch `e`, and no `startNewEpoch` has run in `as`. -/
structure StillBlocked (e t : ℕ) (as : List Action) (s : Monitor) : Prop where
  /-- It is blocked. -/
  blocked : Blocked e (s.place t)
  /-- The epoch is over at most when the broadcast is to come. -/
  epoch : s.sched.epoch = e ∨ s.sup = .broadcast
  /-- What has run of `startNewEpoch`. -/
  done : (Monitor.done s.sup).Sublist as

variable {e : ℕ} {as : List Action}

/-- A thread leaves `blockCurrThread` only in another epoch. -/
theorem Blocked.moves (h : Blocked e p) (hm : Moves s t a p p')
    (he : p.holds → s.sched.epoch = e) : Blocked e p' := by
  rcases h with ⟨c, rfl⟩ | h
  · cases hm with
    | block => exact Or.inr (congrArg some (he rfl))
  · cases hm with
    | call => cases h
    | poor => cases h
    | rich => cases h
    | block => cases h
    | wake => exact Or.inr h
    | again => exact Or.inr h
    | pass hne => exact absurd ((Option.some.inj h).trans (he rfl).symm) hne

theorem Blocked.takes (h : Blocked e p) (hm : Takes p p') : Blocked e p' := by
  cases hm with
  | lock => obtain ⟨c, hc⟩ | h := h <;> contradiction
  | woken => exact Or.inr (by simpa [Place.lastEpoch, Blocked] using h)

theorem Blocked.gives (h : Blocked e p) (hm : Gives p p') : Blocked e p' := by
  cases hm with
  | unlock => obtain ⟨c, hc⟩ | h := h <;> contradiction
  | wait => exact Or.inr (by simpa [Place.lastEpoch, Blocked] using h)

theorem Blocked.not_pays {m m' : ℕ} (h : Blocked e p) : ¬ Pays m p p' m' := fun hm => by
  cases hm <;> obtain ⟨c, hc⟩ | h := h <;> contradiction

/-- A step of a thread, which may be `t` itself. -/
theorem Blocked.goto {u : ℕ} (h : Blocked e (s.place t)) (hself : t = u → Blocked e p) :
    Blocked e ((s.goto u p).place t) := by
  by_cases hut : t = u
  · rw [hut, goto_place_self]
    exact hself hut
  · rwa [goto_place_of_ne hut]

/-- A thread is blocked, whatever step is taken, until `startNewEpoch` has run. -/
theorem stillBlocked_step (hs : Stepped cfg s a s') (ho : Owned s) (h : StillBlocked e t as s) :
    StillBlocked e t (as ++ [a]) s' ∨ startNewEpoch.Sublist (as ++ [a]) := by
  have hdone : (done s.sup).Sublist (as ++ [a]) := h.done.trans (List.sublist_append_left as [a])
  have hmore : (done s.sup ++ [a]).Sublist (as ++ [a]) := h.done.append (List.Sublist.refl [a])
  -- the supervisor at a place `q` where nothing of `startNewEpoch` has run
  have hother : ∀ {q : Sup}, s.sup = q → q ≠ .broadcast → s.sched.epoch = e := by
    rintro q rfl hq
    exact h.epoch.resolve_right hq
  cases hs with
  | skip => exact Or.inl ⟨h.blocked, h.epoch, hdone⟩
  | @move a u p p' hp hm =>
    refine Or.inl ⟨h.blocked.goto ?_, h.epoch, hdone⟩
    rintro rfl
    refine (hp ▸ h.blocked).moves hm fun hh => h.epoch.resolve_right fun hb => ?_
    have hno := ho.not_both (hp ▸ hh : (s.place t).holds)
    rw [hb] at hno
    cases hno
  | take hp hm hfree =>
    refine Or.inl ⟨h.blocked.goto ?_, h.epoch, hdone⟩
    rintro rfl
    exact (hp ▸ h.blocked).takes hm
  | give hp hm =>
    refine Or.inl ⟨h.blocked.goto ?_, h.epoch, hdone⟩
    rintro rfl
    exact (hp ▸ h.blocked).gives hm
  | pay hp hm =>
    refine Or.inl ⟨h.blocked.goto ?_, h.epoch, hdone⟩
    rintro rfl
    exact absurd hm (hp ▸ h.blocked).not_pays
  | begin hp => exact Or.inl ⟨h.blocked, Or.inl (hother hp nofun), List.nil_sublist _⟩
  | lock hp hfree => exact Or.inl ⟨h.blocked, Or.inl (hother hp nofun), by simp [done]⟩
  | @reset i hp hi =>
    refine Or.inl ⟨h.blocked, Or.inl (hother hp nofun), ?_⟩
    rw [hp] at hmore
    simpa [done, Nat.min_eq_left hi.le, Nat.min_eq_left hi, List.range_succ] using hmore
  | @resetDone i hp hi =>
    refine Or.inl ⟨h.blocked, Or.inl (hother hp nofun), ?_⟩
    rw [hp] at hdone
    simpa [done, Nat.min_eq_right hi] using hdone
  | newEpoch hp =>
    rw [hp] at hmore
    exact Or.inl ⟨h.blocked, Or.inr rfl, hmore⟩
  | broadcast hp =>
    rw [hp] at hmore
    exact Or.inr (by simpa [startNewEpoch, done] using hmore)
  | redraw hp | keep hp | draw hp | drawDone hp | unlock hp =>
    exact Or.inl ⟨h.blocked, Or.inl (hother hp nofun), List.nil_sublist _⟩

theorem inv_of_exec {initMoney : ℕ → ℕ} (hinit : MoneyMngr.IsInitMoney cfg initMoney)
    (hrun : exec (step cfg) (init initMoney) as = some s) : Owned s ∧ Paid s := by
  refine exec_invariant (I := fun _ s => Owned s ∧ Paid s) hrun ⟨owned_init _, paid_init hinit⟩ ?_
  rintro _ s a s' ⟨ho, hpaid⟩ hs
  exact ⟨owned_step (step_cases hs) ho, paid_step (step_cases hs) ho hpaid⟩

/-- A thread that is in front of the load of the epoch is blocked until `startNewEpoch` has run. -/
theorem stillBlocked_of_exec {c : ScsCall} (ho : Owned s) (hp : s.place t = .block c)
    (hrun : exec (step cfg) s as = some s') :
    StillBlocked s.sched.epoch t as s' ∨ startNewEpoch.Sublist as := by
  have hout := ho.not_both (by rw [hp]; rfl : (s.place t).holds)
  have hdone : done s.sup = [] := by
    cases hsup : s.sup <;> rw [hsup] at hout <;> first | rfl | cases hout
  refine (exec_invariant (I := fun as s' => Owned s' ∧
    (StillBlocked s.sched.epoch t as s' ∨ startNewEpoch.Sublist as)) hrun
    ⟨ho, Or.inl ⟨Or.inl ⟨c, hp⟩, Or.inl rfl, by rw [hdone]⟩⟩ ?_).2
  rintro as s₁ a s₂ ⟨ho₁, h₁⟩ hs
  refine ⟨owned_step (step_cases hs) ho₁, ?_⟩
  rcases h₁ with h₁ | h₁
  · exact stillBlocked_step (step_cases hs) ho₁ h₁
  · exact Or.inr (h₁.trans (List.sublist_append_left as [a]))

theorem paying_iff : p.paying ↔ ∃ c, p = .dec c := by cases p <;> simp [Place.paying]

theorem checking_iff : p.checking ↔ ∃ c, p = .check c := by cases p <;> simp [Place.checking]

/-- **Nobody passes the gate without money**, and who finds none passes only after a whole
`startNewEpoch`: in every interleaving of any number of threads and the supervisor, whatever
wakes up whom. -/
theorem decrement_has_money {initMoney : ℕ → ℕ} (hinit : MoneyMngr.IsInitMoney cfg initMoney)
    (hrun : exec (step cfg) (init initMoney) as = some s) (t : ℕ) :
    ((s.place t).paying → 1 ≤ s.sched.money t) ∧
      ∀ bs s', (s.place t).checking → s.sched.money t = 0 →
        exec (step cfg) s (.run t :: bs) = some s' → (s'.place t).paying → startNewEpoch.Sublist bs := by
  obtain ⟨ho, hpaid⟩ := inv_of_exec hinit hrun
  constructor
  · intro hp
    obtain ⟨c, hc⟩ := paying_iff.mp hp
    exact hpaid.dec t c hc
  · intro bs s' hp hm hbs hp'
    obtain ⟨c, hc⟩ := checking_iff.mp hp
    obtain ⟨s₁, hs₁, hbs⟩ := Option.bind_eq_some_iff.mp hbs
    have hs := step_cases hs₁
    obtain rfl : s.goto t (.block c) = s₁ := by simpa [step, run, hc, hm] using hs₁
    rcases stillBlocked_of_exec (owned_step hs ho) goto_place_self hbs with hbl | hdone
    · have hbl := hbl.blocked
      obtain ⟨c', hc'⟩ := paying_iff.mp hp'
      rw [hc'] at hbl
      rcases hbl with ⟨_, hb⟩ | hb <;> cases hb
    · exact hdone

/-- Thread 0 pays its two units and comes back to the gate. -/
def spend : List Action :=
  [.call 0 .beforeFuncCall, .run 0, .run 0, .run 0, .run 0,
   .call 0 .beforeFuncCall, .run 0, .run 0, .run 0, .run 0, .call 0 .beforeFuncCall, .run 0]

/-- It waits, wakes up for nothing, waits again, and goes on in the next epoch. -/
def outwait : List Action :=
  [.run 0, .run 0, .wake 0, .run 0, .run 0, .run 0, .supervise .out, .supervise .lock] ++
    (List.range MAX_NR_THREAD).map (fun i => .supervise (.reset i)) ++
    [.supervise (.reset 50), .supervise .newEpoch, .supervise .broadcast, .supervise .count,
     .supervise .unlock, .run 0, .run 0]

theorem decrement_has_money_twoUnits :
    ∃ s, exec (step twoUnits.sched) (init fun _ => 2) (spend ++ .run 0 :: outwait) = some s ∧
      (s.place 0).paying ∧ 1 ≤ s.sched.money 0 ∧ startNewEpoch.Sublist outwait := by
  have hlast : (exec (step twoUnits.sched) (init fun _ => 2) (spend ++ .run 0 :: outwait)).map
      (fun s => (s.place 0).paying) = some true := by decide +kernel
  have hfirst : (exec (step twoUnits.sched) (init fun _ => 2) spend).map
      (fun s => ((s.place 0).checking, s.sched.money 0)) = some (true, 0) := by decide +kernel
  obtain ⟨s', hs', hp'⟩ := Option.map_eq_some_iff.mp hlast
  obtain ⟨s, hs, hp⟩ := Option.map_eq_some_iff.mp hfirst
  have hrun := hs'
  rw [exec_append, hs, Option.bind_some] at hrun
  have hstart := (decrement_has_money isInitMoney_twoUnits hs 0).2 outwait s'
    (congrArg Prod.fst hp) (congrArg Prod.snd hp) hrun hp'
  exact ⟨s', hs', hp', (decrement_has_money isInitMoney_twoUnits hs' 0).1 hp', hstart⟩

end Monitor

end Schnauzer
