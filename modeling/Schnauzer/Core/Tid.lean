import Mathlib.Data.List.Infix
import Mathlib.Data.List.Nodup
import Mathlib.Data.List.Perm.Subperm
import Mathlib.Logic.Function.Basic
import Schnauzer.Common.Event
import Schnauzer.Lib.Runs
import Schnauzer.Sched.ScsImpl

/-!
# Thread ids

`runtime/core/Tid`: a thread that registers gets the next number of a counter or, under
`REUSE_TID`, the first one whose entry in the table of threads alive is false. The counter is a
`uint8_t`, the table has `MAX_NR_THREAD` entries, and nothing compares the two; a store past
the end of the table is undefined, so that a run ends with it.

## What is proved

* `Sound` — what the counter and the table say of the threads that are registered.
* `valid_iff_room` — a thread gets a tid of its own in range if and only if there is room for it.
-/

namespace Schnauzer

/-- What `core/Tid` keeps of all threads. -/
structure Tids where
  /-- `__tid_counter`. -/
  tidCounter : ℕ
  /-- `__pthread_id_table`. -/
  pthreadIdTable : ℕ → Option ℕ
  /-- `__alive_thread_table`. -/
  aliveThreadTable : ℕ → Bool
  /-- A store has gone past the end of it. -/
  overrun : Bool

namespace Tid

/-- Before the first thread. -/
def init : Tids := ⟨0, fun _ => none, fun _ => false, false⟩

/-- `getNrThread`. -/
def getNrThread (s : Tids) : ℕ := s.tidCounter

/-- `freshTid`. -/
def freshTid (s : Tids) : ℕ × Tids :=
  (s.tidCounter, { s with tidCounter := (s.tidCounter + 1) % UInt8.size })

/-- A store into `__alive_thread_table`. -/
def setAlive (s : Tids) (t : ℕ) (alive : Bool) : Tids :=
  if t < MAX_NR_THREAD then { s with aliveThreadTable := Function.update s.aliveThreadTable t alive }
  else { s with overrun := true }

/-- What the loop of `getNewTid` finds. -/
def deadEntry (s : Tids) : Option ℕ :=
  (List.range (getNrThread s)).find? fun i => !s.aliveThreadTable i

/-- `getNewTid`; `self` is the thread's `pthread_t`, `myTid` its `__my_tid`. -/
def getNewTid (reuseTid : Bool) (self myTid : ℕ) (s : Tids) : ℕ × Tids :=
  let myTid := if reuseTid then (deadEntry s).getD myTid else myTid
  let (myTid, s) := if myTid = UNDEFINED_TID then freshTid s else (myTid, s)
  let s := { s with pthreadIdTable := Function.update s.pthreadIdTable self (some myTid) }
  (myTid, setAlive s myTid true)

/-- `getCurrTid`. -/
def getCurrTid (myTid : ℕ) : Option ℕ :=
  if myTid ≠ UNDEFINED_TID ∧ myTid < MAX_NR_THREAD then some myTid else none

/-- `lookupTid`. -/
def lookupTid (self : ℕ) (s : Tids) : Option ℕ := s.pthreadIdTable self

/-- `unregisterCurrThread`. -/
def unregisterCurrThread (myTid : ℕ) (s : Tids) : Option Tids :=
  (getCurrTid myTid).map fun t => setAlive s t false

/-- `isThreadAlive`. -/
def isThreadAlive (t : ℕ) (s : Tids) : Bool := s.aliveThreadTable t

end Tid

/-- The threads that have registered. -/
structure Registry where
  /-- `core/Tid`. -/
  tids : Tids
  /-- Their `__my_tid`. -/
  myTid : ℕ → ℕ
  /-- Those that are still registered. -/
  registered : List ℕ
  /-- How many there have been. -/
  nrRegistrations : ℕ

namespace Registry

open Runs Tid

/-- Before the first thread. -/
def init : Registry := ⟨Tid.init, fun _ => UNDEFINED_TID, [], 0⟩

/-- The tid that a thread gets. -/
def newTid (reuseTid : Bool) (r : Registry) (p self : ℕ) : ℕ := (getNewTid reuseTid self (r.myTid p) r.tids).1

/-- A thread registers. -/
def register (reuseTid : Bool) (r : Registry) (p self : ℕ) : Registry where
  tids := (getNewTid reuseTid self (r.myTid p) r.tids).2
  myTid := Function.update r.myTid p (r.newTid reuseTid p self)
  registered := p :: r.registered
  nrRegistrations := r.nrRegistrations + 1

/-- A thread unregisters. -/
def unregister (r : Registry) (p : ℕ) : Option Registry :=
  (unregisterCurrThread (r.myTid p) r.tids).map fun tids => { r with tids, registered := r.registered.erase p }

/-- A tid that the table, the money and the clocks have an entry for, and no other thread. -/
structure Valid (r : Registry) (t : ℕ) : Prop where
  ne_undefined : t ≠ UNDEFINED_TID
  lt_max : t < MAX_NR_THREAD
  unused : ∀ q ∈ r.registered, r.myTid q ≠ t

/-- There is room for one more thread. -/
def Room (reuseTid : Bool) (registered nrRegistrations : ℕ) : Prop :=
  if reuseTid then registered < MAX_NR_THREAD else nrRegistrations < MAX_NR_THREAD

/-- The counter and the table are right about the threads that are registered. -/
structure Sound (reuseTid : Bool) (r : Registry) : Prop where
  overrun : r.tids.overrun = false
  nodup : r.registered.Nodup
  counter_le : r.tids.tidCounter ≤ MAX_NR_THREAD
  counter_eq : reuseTid = false → r.tids.tidCounter = r.nrRegistrations
  lt_counter : ∀ p ∈ r.registered, r.myTid p < r.tids.tidCounter
  inj : ∀ p ∈ r.registered, ∀ q ∈ r.registered, r.myTid p = r.myTid q → p = q
  alive_iff : ∀ t < MAX_NR_THREAD, isThreadAlive t r.tids ↔ ∃ p ∈ r.registered, r.myTid p = t

variable {reuseTid : Bool} {r r' : Registry} {p self t : ℕ}

theorem sound_init : Sound reuseTid init where
  overrun := rfl
  nodup := List.nodup_nil
  counter_le := Nat.zero_le _
  counter_eq _ := rfl
  lt_counter _ hp := absurd hp List.not_mem_nil
  inj _ hp := absurd hp List.not_mem_nil
  alive_iff _ _ := by simp [init, Tid.init, isThreadAlive]

/-- The tids in use. -/
theorem Sound.nodup_tids (h : Sound reuseTid r) : (r.registered.map r.myTid).Nodup :=
  h.nodup.map_on fun p hp q hq => h.inj p hp q hq

theorem Sound.length_le (h : Sound reuseTid r) : r.registered.length ≤ r.tids.tidCounter := by
  have hsub : r.registered.map r.myTid ⊆ List.range r.tids.tidCounter := by
    intro t ht
    obtain ⟨p, hp, rfl⟩ := List.mem_map.mp ht
    exact List.mem_range.mpr (h.lt_counter p hp)
  simpa using (List.subperm_of_subset h.nodup_tids hsub).length_le

/-- Without a dead entry every tid below the counter is in use. -/
theorem Sound.length_eq (h : Sound reuseTid r) (hdead : deadEntry r.tids = none) :
    r.registered.length = r.tids.tidCounter := by
  have hsub : List.range r.tids.tidCounter ⊆ r.registered.map r.myTid := by
    intro t ht
    have hlt := List.mem_range.mp ht
    have halive := List.find?_eq_none.mp hdead t ht
    obtain ⟨p, hp, hpt⟩ := (h.alive_iff t (hlt.trans_le h.counter_le)).mp (by simpa [isThreadAlive] using halive)
    exact List.mem_map.mpr ⟨p, hp, hpt⟩
  have hle := (List.subperm_of_subset List.nodup_range hsub).length_le
  simp only [List.length_range, List.length_map] at hle
  exact le_antisymm h.length_le hle

theorem deadEntry_eq_some {s : Tids} (h : deadEntry s = some t) :
    t < s.tidCounter ∧ isThreadAlive t s = false := by
  refine ⟨List.mem_range.mp (List.mem_of_find?_eq_some h), ?_⟩
  simpa [isThreadAlive] using List.find?_some h

/-- The tid of a thread that registers for the first time. -/
theorem newTid_eq (hp : r.myTid p = UNDEFINED_TID) (h : Sound reuseTid r) :
    r.newTid reuseTid p self = ((if reuseTid then deadEntry r.tids else none).getD r.tids.tidCounter) := by
  unfold newTid getNewTid
  rw [hp]
  cases reuseTid with
  | false => simp [freshTid]
  | true =>
    cases hd : deadEntry r.tids with
    | none => simp [freshTid]
    | some t =>
      have hlt := (deadEntry_eq_some hd).1.trans_le h.counter_le
      have hne : t ≠ UNDEFINED_TID := by
        rintro rfl
        exact absurd hlt (by decide)
      simp [hne]

/-- A tid in range is no other thread's. -/
theorem Sound.valid_iff_lt (h : Sound reuseTid r) (hp : r.myTid p = UNDEFINED_TID) :
    r.Valid (r.newTid reuseTid p self) ↔ r.newTid reuseTid p self < MAX_NR_THREAD := by
  refine ⟨fun hv => hv.lt_max, fun hlt => ⟨(hlt.trans (by decide)).ne, hlt, ?_⟩⟩
  rw [newTid_eq hp h]
  cases hdead : (if reuseTid then deadEntry r.tids else none) with
  | none => exact fun q hq => (h.lt_counter q hq).ne
  | some t =>
    have hd : deadEntry r.tids = some t := by
      split_ifs at hdead
      exact hdead
    obtain ⟨hlt, hnot⟩ := deadEntry_eq_some hd
    intro q hq he
    rw [← Bool.not_eq_true, h.alive_iff t (hlt.trans_le h.counter_le)] at hnot
    exact hnot ⟨q, hq, he⟩

/-- A dead entry leaves room. -/
theorem Sound.length_lt (h : Sound reuseTid r) (hdead : deadEntry r.tids = some t) :
    r.registered.length < r.tids.tidCounter := by
  obtain ⟨hlt, hnot⟩ := deadEntry_eq_some hdead
  rw [← Bool.not_eq_true, h.alive_iff t (hlt.trans_le h.counter_le)] at hnot
  -- the registered threads have tids other than the dead one
  have hsub : t :: r.registered.map r.myTid ⊆ List.range r.tids.tidCounter := by
    intro u hu
    rcases List.mem_cons.mp hu with rfl | hu
    · exact List.mem_range.mpr hlt
    · obtain ⟨q, hq, rfl⟩ := List.mem_map.mp hu
      exact List.mem_range.mpr (h.lt_counter q hq)
  have hnodup : (t :: r.registered.map r.myTid).Nodup := by
    refine List.nodup_cons.mpr ⟨fun hm => ?_, h.nodup_tids⟩
    obtain ⟨q, hq, he⟩ := List.mem_map.mp hm
    exact hnot ⟨q, hq, he⟩
  have hlen := (List.subperm_of_subset hnodup hsub).length_le
  rwa [List.length_cons, List.length_map, List.length_range] at hlen

theorem Sound.lt_iff_room (h : Sound reuseTid r) (hp : r.myTid p = UNDEFINED_TID) :
    r.newTid reuseTid p self < MAX_NR_THREAD ↔ Room reuseTid r.registered.length r.nrRegistrations := by
  rw [newTid_eq hp h]
  cases hreuse : reuseTid with
  | false => simp [Room, ← h.counter_eq hreuse]
  | true =>
    simp only [Room, if_true]
    cases hdead : deadEntry r.tids with
    | none => rw [Option.getD_none, h.length_eq hdead]
    | some t =>
      have hlt := (deadEntry_eq_some hdead).1.trans_le h.counter_le
      exact iff_of_true hlt ((h.length_lt hdead).trans_le h.counter_le)

/-- **Room**: a thread that registers gets a valid tid if and only if fewer than `MAX_NR_THREAD` threads
are registered or, without `REUSE_TID`, have ever been. -/
theorem Sound.valid_iff_room (h : Sound reuseTid r) (hp : r.myTid p = UNDEFINED_TID) :
    r.Valid (r.newTid reuseTid p self) ↔ Room reuseTid r.registered.length r.nrRegistrations :=
  (h.valid_iff_lt hp).trans (h.lt_iff_room hp)

theorem newTid_le (h : Sound reuseTid r) (hp : r.myTid p = UNDEFINED_TID) :
    r.newTid reuseTid p self ≤ r.tids.tidCounter := by
  rw [newTid_eq hp h]
  cases hd : (if reuseTid then deadEntry r.tids else none) with
  | none => exact le_rfl
  | some t =>
    split_ifs at hd
    exact (deadEntry_eq_some hd).1.le

/-- Without room a thread gets the first tid out of range. -/
theorem Sound.newTid_of_full (h : Sound reuseTid r) (hp : r.myTid p = UNDEFINED_TID)
    (hfull : ¬ Room reuseTid r.registered.length r.nrRegistrations) :
    r.newTid reuseTid p self = MAX_NR_THREAD :=
  le_antisymm ((newTid_le h hp).trans h.counter_le) (Nat.le_of_not_lt (mt (h.lt_iff_room hp).mp hfull))

/-- A tid out of range overruns the table, and leaves its entries as they are. -/
theorem overrun_of_max_le (reuseTid : Bool) (self myTid : ℕ) (s : Tids)
    (h : MAX_NR_THREAD ≤ (getNewTid reuseTid self myTid s).1) :
    (getNewTid reuseTid self myTid s).2.overrun = true ∧
      (getNewTid reuseTid self myTid s).2.aliveThreadTable = s.aliveThreadTable := by
  revert h
  unfold getNewTid
  generalize (if reuseTid then (deadEntry s).getD myTid else myTid) = t
  dsimp only
  split_ifs
  · intro h
    simp only [setAlive, freshTid] at h ⊢
    simp [Nat.not_lt_of_le h]
  · intro h
    simp [setAlive, Nat.not_lt_of_le h]

/-- What `getNewTid` does to the counter and the table. -/
theorem getNewTid_snd (reuseTid : Bool) (self : ℕ) {myTid : ℕ} {s : Tids} (hp : myTid = UNDEFINED_TID)
    (hs : s.tidCounter ≤ MAX_NR_THREAD) (ht : (getNewTid reuseTid self myTid s).1 = t) (hlt : t < MAX_NR_THREAD) :
    (getNewTid reuseTid self myTid s).2 =
      { tidCounter := if t = s.tidCounter then s.tidCounter + 1 else s.tidCounter
        pthreadIdTable := Function.update s.pthreadIdTable self (some t)
        aliveThreadTable := Function.update s.aliveThreadTable t true
        overrun := s.overrun } := by
  subst ht
  revert hlt
  unfold getNewTid
  rw [hp]
  cases reuseTid with
  | false =>
    intro hlt
    simp only [Bool.false_eq_true, if_false, if_true, freshTid] at hlt ⊢
    have hmod : (s.tidCounter + 1) % UInt8.size = s.tidCounter + 1 :=
      Nat.mod_eq_of_lt (lt_of_le_of_lt (Nat.succ_le_of_lt hlt) (by decide))
    simp [setAlive, hlt, hmod]
  | true =>
    cases hd : deadEntry s with
    | none =>
      intro hlt
      simp only [if_true, Option.getD_none, freshTid] at hlt ⊢
      have hmod : (s.tidCounter + 1) % UInt8.size = s.tidCounter + 1 :=
        Nat.mod_eq_of_lt (lt_of_le_of_lt (Nat.succ_le_of_lt hlt) (by decide))
      simp [setAlive, hlt, hmod]
    | some t =>
      have hlt' := (deadEntry_eq_some hd).1
      have hne : t ≠ UNDEFINED_TID := by
        rintro rfl
        exact absurd (hlt'.trans_le hs) (by decide)
      simp [hne, setAlive, hlt'.trans_le hs, hlt'.ne]

/-- A thread for which there is room registers. -/
theorem Sound.register (h : Sound reuseTid r) (hp : r.myTid p = UNDEFINED_TID) (hnot : p ∉ r.registered)
    (hroom : Room reuseTid r.registered.length r.nrRegistrations) :
    Sound reuseTid (r.register reuseTid p self) := by
  have hv : r.Valid (r.newTid reuseTid p self) := (h.valid_iff_room hp).mpr hroom
  have hle : r.newTid reuseTid p self ≤ r.tids.tidCounter := newTid_le h hp
  have hsnd := getNewTid_snd reuseTid self hp h.counter_le rfl hv.lt_max
  have hold : ∀ q ∈ r.registered, (r.register reuseTid p self).myTid q = r.myTid q := fun q hq =>
    Function.update_of_ne (ne_of_mem_of_not_mem hq hnot) ..
  have hnew : (r.register reuseTid p self).myTid p = r.newTid reuseTid p self := Function.update_self ..
  have hcounter : (r.register reuseTid p self).tids.tidCounter =
      if r.newTid reuseTid p self = r.tids.tidCounter then r.tids.tidCounter + 1 else r.tids.tidCounter :=
    congrArg Tids.tidCounter hsnd
  have halive : (r.register reuseTid p self).tids.aliveThreadTable =
      Function.update r.tids.aliveThreadTable (r.newTid reuseTid p self) true :=
    congrArg Tids.aliveThreadTable hsnd
  have hmax := hv.lt_max
  refine
    { overrun := (congrArg Tids.overrun hsnd).trans h.overrun
      nodup := List.nodup_cons.mpr ⟨hnot, h.nodup⟩
      counter_le := ?_
      counter_eq := fun hreuse => ?_
      lt_counter := fun q hq => ?_
      inj := fun q hq q' hq' he => ?_
      alive_iff := fun t ht => ?_ }
  · have := h.counter_le
    rw [hcounter]
    split_ifs with heq
    · omega
    · exact this
  · subst hreuse
    rw [hcounter, if_pos (show newTid false r p self = r.tids.tidCounter from newTid_eq hp h), h.counter_eq rfl]
    rfl
  · rw [hcounter]
    rcases List.mem_cons.mp hq with rfl | hq
    · rw [hnew]
      split_ifs with heq <;> omega
    · have := h.lt_counter q hq
      rw [hold q hq]
      split_ifs <;> omega
  · rcases List.mem_cons.mp hq with rfl | hq₁ <;> rcases List.mem_cons.mp hq' with rfl | hq₂
    · rfl
    · rw [hnew, hold q' hq₂] at he
      exact absurd he.symm (hv.unused q' hq₂)
    · rw [hnew, hold q hq₁] at he
      exact absurd he (hv.unused q hq₁)
    · rw [hold q hq₁, hold q' hq₂] at he
      exact h.inj q hq₁ q' hq₂ he
  · unfold isThreadAlive
    rw [halive]
    by_cases heq : t = r.newTid reuseTid p self
    · subst heq
      rw [Function.update_self]
      exact ⟨fun _ => ⟨p, List.mem_cons_self, hnew⟩, fun _ => rfl⟩
    · rw [Function.update_of_ne heq]
      refine (h.alive_iff t ht).trans ⟨?_, ?_⟩
      · rintro ⟨q, hq, he⟩
        exact ⟨q, List.mem_cons_of_mem _ hq, (hold q hq).trans he⟩
      · rintro ⟨q, hq, he⟩
        rcases List.mem_cons.mp hq with rfl | hq
        · exact absurd (he.symm.trans hnew) heq
        · exact ⟨q, hq, (hold q hq).symm.trans he⟩

/-- A thread that is registered can unregister. -/
theorem Sound.unregister (h : Sound reuseTid r) (hp : p ∈ r.registered) :
    ∃ r', r.unregister p = some r' ∧ Sound reuseTid r' := by
  have hlt := h.lt_counter p hp
  have hmax := hlt.trans_le h.counter_le
  have hcurr : getCurrTid (r.myTid p) = some (r.myTid p) := if_pos ⟨(hmax.trans (by decide)).ne, hmax⟩
  have hset : setAlive r.tids (r.myTid p) false =
      { r.tids with aliveThreadTable := Function.update r.tids.aliveThreadTable (r.myTid p) false } := if_pos hmax
  refine ⟨_, by rw [Registry.unregister, unregisterCurrThread, hcurr, Option.map_some, Option.map_some, hset], ?_⟩
  refine
    { overrun := h.overrun
      nodup := h.nodup.erase p
      counter_le := h.counter_le
      counter_eq := h.counter_eq
      lt_counter := fun q hq => h.lt_counter q (List.mem_of_mem_erase hq)
      inj := fun q hq q' hq' => h.inj q (List.mem_of_mem_erase hq) q' (List.mem_of_mem_erase hq')
      alive_iff := fun t ht => ?_ }
  dsimp only [isThreadAlive]
  by_cases heq : t = r.myTid p
  · subst heq
    rw [Function.update_self]
    refine ⟨nofun, ?_⟩
    rintro ⟨q, hq, he⟩
    obtain ⟨hne, hq⟩ := h.nodup.mem_erase_iff.mp hq
    exact absurd (h.inj q hq p hp he) hne
  · rw [Function.update_of_ne heq]
    refine (h.alive_iff t ht).trans ⟨?_, ?_⟩
    · rintro ⟨q, hq, he⟩
      exact ⟨q, h.nodup.mem_erase_iff.mpr ⟨by rintro rfl; exact heq he.symm, hq⟩, he⟩
    · rintro ⟨q, hq, he⟩
      exact ⟨q, List.mem_of_mem_erase hq, he⟩

@[simp] theorem setAlive_pthreadIdTable (s : Tids) (t : ℕ) (alive : Bool) :
    (setAlive s t alive).pthreadIdTable = s.pthreadIdTable := by
  unfold setAlive
  split_ifs <;> rfl

/-- A thread that registers is entered under its `pthread_t`. -/
theorem lookupTid_register (reuseTid : Bool) (r : Registry) (p self h : ℕ) :
    lookupTid h (r.register reuseTid p self).tids =
      if h = self then some (r.newTid reuseTid p self) else lookupTid h r.tids := by
  have htable : (r.register reuseTid p self).tids.pthreadIdTable =
      Function.update r.tids.pthreadIdTable self (some (r.newTid reuseTid p self)) := by
    simp only [register, newTid, getNewTid, setAlive_pthreadIdTable]
    split_ifs <;> rfl
  rw [lookupTid, htable, Function.update_apply]
  rfl

/-- It stays there. -/
theorem lookupTid_unregister (h : r.unregister p = some r') (self : ℕ) :
    lookupTid self r'.tids = lookupTid self r.tids := by
  obtain ⟨tids, htids, rfl⟩ := Option.map_eq_some_iff.mp h
  obtain ⟨t, -, rfl⟩ := Option.map_eq_some_iff.mp htids
  exact congrFun (setAlive_pthreadIdTable ..) self

/-! ### Sequences of registrations -/

/-- What threads do. -/
inductive Op where
  /-- A thread registers, with its `pthread_t`. -/
  | register (p self : ℕ)
  /-- A thread unregisters. -/
  | unregister (p : ℕ)

/-- One of them; nothing follows a store past the end of the table. -/
def step (reuseTid : Bool) (r : Registry) (op : Op) : Option Registry :=
  if r.tids.overrun then none
  else match op with
  | .register p self => some (r.register reuseTid p self)
  | .unregister p => r.unregister p

/-- The threads that have registered. -/
def newcomers : List Op → List ℕ
  | [] => []
  | .register p _ :: ops => p :: newcomers ops
  | .unregister _ :: ops => newcomers ops

/-- Those of them that have not unregistered, over `ps` that were there before. -/
def remaining (ps : List ℕ) : List Op → List ℕ
  | [] => ps
  | .register p _ :: ops => remaining (p :: ps) ops
  | .unregister p :: ops => remaining (ps.erase p) ops

/-- Every thread registers at most once, and unregisters at most once after that. -/
inductive WellFormed : List Op → Prop where
  /-- No thread. -/
  | nil : WellFormed []
  /-- One more thread. -/
  | register {ops : List Op} {p self : ℕ} (h : WellFormed ops) (hp : p ∉ newcomers ops) :
      WellFormed (ops ++ [.register p self])
  /-- One thread less. -/
  | unregister {ops : List Op} {p : ℕ} (h : WellFormed ops) (hp : p ∈ remaining [] ops) :
      WellFormed (ops ++ [.unregister p])

/-- Every thread that registers gets a valid tid. -/
def TidsValid (reuseTid : Bool) (ops : List Op) : Prop :=
  ∀ ops' p self, ops' ++ [.register p self] <+: ops →
    ∃ r, exec (step reuseTid) init ops' = some r ∧ r.Valid (r.newTid reuseTid p self)

/-- There is room for every thread that registers. -/
def HasRoom (reuseTid : Bool) (ops : List Op) : Prop :=
  ∀ ops' p self, ops' ++ [.register p self] <+: ops →
    Room reuseTid (remaining [] ops').length (newcomers ops').length

variable {ops : List Op}

theorem newcomers_append (ops₁ ops₂ : List Op) : newcomers (ops₁ ++ ops₂) = newcomers ops₁ ++ newcomers ops₂ := by
  induction ops₁ with
  | nil => rfl
  | cons op ops₁ ih => cases op <;> simp [newcomers, ih]

theorem remaining_append (ps : List ℕ) (ops₁ ops₂ : List Op) :
    remaining ps (ops₁ ++ ops₂) = remaining (remaining ps ops₁) ops₂ := by
  induction ops₁ generalizing ps with
  | nil => rfl
  | cons op ops₁ ih => cases op <;> simp [remaining, ih]

theorem HasRoom.mono (h : HasRoom reuseTid ops) {ops' : List Op} (hp : ops' <+: ops) :
    HasRoom reuseTid ops' := fun _ p self hle => h _ p self (hle.trans hp)

/-- A run after which all is right. -/
structure Tracks (reuseTid : Bool) (ops : List Op) (r : Registry) : Prop where
  exec_eq : exec (step reuseTid) init ops = some r
  sound : Sound reuseTid r
  registered : r.registered = remaining [] ops
  nrRegistrations : r.nrRegistrations = (newcomers ops).length
  myTid : ∀ p, p ∉ newcomers ops → r.myTid p = UNDEFINED_TID
  known : ∀ p ∈ remaining [] ops, p ∈ newcomers ops

theorem Tracks.valid_iff (h : Tracks reuseTid ops r) (hp : p ∉ newcomers ops) :
    r.Valid (r.newTid reuseTid p self) ↔ Room reuseTid (remaining [] ops).length (newcomers ops).length := by
  rw [h.sound.valid_iff_room (h.myTid p hp), h.registered, h.nrRegistrations]

theorem Tracks.register (h : Tracks reuseTid ops r) (hp : p ∉ newcomers ops)
    (hroom : Room reuseTid (remaining [] ops).length (newcomers ops).length) :
    Tracks reuseTid (ops ++ [.register p self]) (r.register reuseTid p self) := by
  have hnot : p ∉ r.registered := fun hm => hp (h.known p (h.registered ▸ hm))
  refine
    { exec_eq := ?_
      sound := h.sound.register (h.myTid p hp) hnot (by rwa [h.registered, h.nrRegistrations])
      registered := by simp [remaining_append, remaining, Registry.register, h.registered]
      nrRegistrations := by simp [newcomers_append, newcomers, Registry.register, h.nrRegistrations]
      myTid := fun q hq => ?_
      known := fun q hq => ?_ }
  · simp [exec_append, h.exec_eq, exec, step, h.sound.overrun]
  · simp only [newcomers_append, newcomers, List.mem_append, List.mem_singleton, not_or] at hq
    exact (Function.update_of_ne hq.2 ..).trans (h.myTid q hq.1)
  · simp only [remaining_append, remaining, List.mem_cons] at hq
    simp only [newcomers_append, newcomers, List.mem_append, List.mem_singleton]
    exact hq.symm.imp_left (h.known q)

theorem Tracks.unregister (h : Tracks reuseTid ops r) (hp : p ∈ remaining [] ops) :
    ∃ r', Tracks reuseTid (ops ++ [.unregister p]) r' := by
  obtain ⟨r', hr', hsound⟩ := h.sound.unregister (h.registered ▸ hp)
  have hfields : r'.registered = r.registered.erase p ∧ r'.nrRegistrations = r.nrRegistrations ∧
      r'.myTid = r.myTid := by
    obtain ⟨tids, -, rfl⟩ := Option.map_eq_some_iff.mp hr'
    exact ⟨rfl, rfl, rfl⟩
  obtain ⟨hreg, hnr, hmy⟩ := hfields
  refine ⟨r', ?_, hsound, ?_, ?_, fun q hq => ?_, fun q hq => ?_⟩
  · simp [exec_append, h.exec_eq, exec, step, h.sound.overrun, hr']
  · rw [hreg, h.registered, remaining_append]
    rfl
  · rw [hnr, h.nrRegistrations, newcomers_append]
    simp [newcomers]
  · rw [hmy]
    exact h.myTid q (by simpa [newcomers_append, newcomers] using hq)
  · simp only [remaining_append, remaining] at hq
    simpa [newcomers_append, newcomers] using h.known q (List.mem_of_mem_erase hq)

/-- A sequence with room for all runs to its end. -/
theorem exists_tracks (h : WellFormed ops) (hroom : HasRoom reuseTid ops) : ∃ r, Tracks reuseTid ops r := by
  induction h with
  | nil => exact ⟨init, rfl, sound_init, rfl, rfl, fun _ _ => rfl, fun _ hp => absurd hp List.not_mem_nil⟩
  | @register ops p self h hp ih =>
    obtain ⟨r, hr⟩ := ih (hroom.mono (List.prefix_append ..))
    exact ⟨_, hr.register hp (hroom _ _ _ List.prefix_rfl)⟩
  | @unregister ops p h hp ih =>
    obtain ⟨r, hr⟩ := ih (hroom.mono (List.prefix_append ..))
    exact hr.unregister hp

theorem WellFormed.mono (h : WellFormed ops) {ops' : List Op} (hp : ops' <+: ops) : WellFormed ops' := by
  induction h with
  | nil => exact List.prefix_nil.mp hp ▸ .nil
  | register h hnew ih =>
    rcases List.prefix_concat_iff.mp hp with rfl | hp
    · exact .register h hnew
    · exact ih hp
  | unregister h hmem ih =>
    rcases List.prefix_concat_iff.mp hp with rfl | hp
    · exact .unregister h hmem
    · exact ih hp

theorem WellFormed.not_mem (h : WellFormed (ops ++ [.register p self])) : p ∉ newcomers ops := by
  generalize hq : ops ++ [.register p self] = ops' at h
  cases h with
  | nil => simp at hq
  | register h hp =>
    obtain ⟨rfl, hop⟩ := List.append_inj' hq rfl
    cases hop
    exact hp
  | unregister h hp =>
    obtain ⟨rfl, hop⟩ := List.append_inj' hq rfl
    cases hop

/-- **Tids**: all threads get valid tids if and only if there is room for each of them when it
registers. -/
theorem tidsValid_iff_hasRoom (reuseTid : Bool) (h : WellFormed ops) :
    TidsValid reuseTid ops ↔ HasRoom reuseTid ops := by
  constructor
  · intro hvalid ops' p self hle
    -- by induction on the length: there is room for those before
    induction hlen : ops'.length using Nat.strong_induction_on generalizing ops' p self with
    | _ n ih =>
      have hbefore : HasRoom reuseTid ops' := by
        intro ops'' q self' hle'
        have hlt : ops''.length < n := by
          have := hle'.length_le
          rw [List.length_append, List.length_singleton] at this
          omega
        exact ih _ hlt ops'' q self' (hle'.trans ((List.prefix_append ..).trans hle)) rfl
      obtain ⟨r, hr⟩ := exists_tracks (h.mono ((List.prefix_append ..).trans hle)) hbefore
      obtain ⟨r', hr', hv⟩ := hvalid ops' p self hle
      obtain rfl := Option.some.inj (hr.exec_eq.symm.trans hr')
      exact (hr.valid_iff (h.mono hle).not_mem).mp hv
  · intro hroom ops' p self hle
    have hle' := (List.prefix_append ops' _).trans hle
    obtain ⟨r, hr⟩ := exists_tracks (h.mono hle') (hroom.mono hle')
    exact ⟨r, hr.exec_eq, (hr.valid_iff (h.mono hle).not_mem).mpr (hroom ops' p self hle)⟩

/-- Threads `0` to `n - 1` register. -/
def crowd (n : ℕ) : List Op := (List.range n).map fun p => .register p p

theorem newcomers_crowd (n : ℕ) : newcomers (crowd n) = List.range n := by
  unfold crowd
  induction List.range n with
  | nil => rfl
  | cons p ps ih => simp [newcomers, ih]

theorem wellFormed_crowd (n : ℕ) : WellFormed (crowd n) := by
  induction n with
  | zero => exact .nil
  | succ n ih =>
    unfold crowd
    rw [List.range_succ, List.map_append]
    exact ih.register (by simp [newcomers_crowd])

theorem length_remaining_le (ps : List ℕ) (ops : List Op) :
    (remaining ps ops).length ≤ ps.length + ops.length := by
  induction ops generalizing ps with
  | nil => exact le_rfl
  | cons op ops ih =>
    cases op with
    | register p self =>
      have := ih (p :: ps)
      simp only [remaining, List.length_cons] at this ⊢
      omega
    | unregister p =>
      have := ih (ps.erase p)
      have := List.length_erase_le (a := p) (l := ps)
      simp only [remaining, List.length_cons]
      omega

theorem tidsValid_crowd_fifty : TidsValid true (crowd 50) := by
  refine (tidsValid_iff_hasRoom true (wellFormed_crowd 50)).mpr fun ops p self hle => ?_
  have hlen := hle.length_le
  have hremaining := length_remaining_le [] ops
  simp only [crowd, List.length_append, List.length_map, List.length_range, List.length_cons,
    List.length_nil] at hlen hremaining
  show _ < MAX_NR_THREAD
  unfold MAX_NR_THREAD
  omega

/-- The fifty-first thread gets the tid 50. -/
theorem crowd_overruns :
    WellFormed (crowd 51) ∧ ¬ TidsValid false (crowd 51) ∧ ¬ TidsValid true (crowd 51) := by
  have hpre : crowd 50 ++ [.register 50 50] <+: crowd 51 := ⟨[], rfl⟩
  have htid : ∀ reuseTid,
      (exec (step reuseTid) init (crowd 50)).map (newTid reuseTid · 50 50) = some 50 := by decide +kernel
  have hnot : ∀ reuseTid, ¬ TidsValid reuseTid (crowd 51) := by
    intro reuseTid h
    obtain ⟨r, hr, hv⟩ := h (crowd 50) 50 50 hpre
    have hfifty := htid reuseTid
    rw [hr, Option.map_some, Option.some.injEq] at hfifty
    exact absurd hv.lt_max (by rw [hfifty]; decide)
  exact ⟨wellFormed_crowd 51, hnot false, hnot true⟩

end Registry

end Schnauzer
