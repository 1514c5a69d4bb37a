import Schnauzer.Depgraph.AccessSets
import Schnauzer.Lib.Runs

/-!
# The ticks that threads keep of themselves

The methods of `VarMeta` called in any order, with any events: what a thread's clock holds
of the thread itself is ahead of what any other clock holds of it, the operations that are
stored are behind the clock they were copied from, and clocks only grow. A call that
aborts ends the run.

Each method is an update of the clocks (`HbUpdate`), after a clock was initialised, or it
stores an operation (`Store`); `Fresh.of_le` is the rule for the former.

## What is proved

* `ownTicks` — the invariant, in every state that calls of the methods reach, and what one
  more call does.
* `getTick_le_calls` — ticks grow with the number of calls at most, so that the source's
  `unsigned long` holds them.
* `stateAt_calls` — the race analysis only reaches such states.
-/

namespace Schnauzer

open LogicalClock Runs

/-- A call of a method of `VarMeta`. -/
inductive MetaCall where
  /-- `updateHB`. -/
  | updateHB (evt : Event)
  /-- `putRead`. -/
  | putRead (p : EventPtr)
  /-- `putWrite`. -/
  | putWrite (p : EventPtr)
  /-- `clearSyncRel`. -/
  | clearSyncRel (p : EventPtr)
  /-- `putSyncRel`. -/
  | putSyncRel (p : EventPtr)
  /-- `getRaceEvents`. -/
  | getRaceEvents (evt : Event)
  /-- `getSyncHbEvents`. -/
  | getSyncHbEvents (evt : Event)

namespace VarMeta

/-- What a call leaves, unless it aborts. -/
def call (m : VarMeta) : MetaCall → Option VarMeta
  | .updateHB evt => (m.updateHB evt).toOption
  | .putRead p => (m.putRead p).toOption
  | .putWrite p => (m.putWrite p).toOption
  | .clearSyncRel p => some (m.clearSyncRel p)
  | .putSyncRel p => (m.putSyncRel p).toOption
  | .getRaceEvents evt => ((m.getRaceEvents evt).map Prod.snd).toOption
  | .getSyncHbEvents evt => ((m.getSyncHbEvents evt).map fun _ => m).toOption

/-- The operation is in one of the sets. -/
def Stored (m : VarMeta) (op : Operation) : Prop :=
  ∃ a, op ∈ m.varRsetTable a ∨ op ∈ m.varWsetTable a ∨ op ∈ m.syncRelTable a

/-- What the clocks and the stored operations hold of the threads. -/
structure OwnTicks (m : VarMeta) : Prop where
  /-- Of a thread whose clock is in use, another thread's clock holds less. -/
  thread : ∀ t s, s ≠ t → m.isThreadVcInit t →
    (m.threadVc s).getTick t < (m.threadVc t).getTick t
  /-- And so does the clock of a synchronisation variable. -/
  syncVar : ∀ t a, m.isThreadVcInit t → (m.syncVarVcTable a).getTick t < (m.threadVc t).getTick t
  /-- Of a thread whose clock is not in use, another thread's clock holds nothing. -/
  thread_zero : ∀ t s, s ≠ t → ¬ m.isThreadVcInit t → (m.threadVc s).getTick t = 0
  /-- Nor does the clock of a synchronisation variable. -/
  syncVar_zero : ∀ t a, ¬ m.isThreadVcInit t → (m.syncVarVcTable a).getTick t = 0
  /-- Stored operations are not ahead of their threads. -/
  stored : ∀ op, m.Stored op →
    ∃ t : Fin MAX_THREAD, t.val = op.getEvent.evt.tid ∧
      op.getVC.getTick t ≤ (m.threadVc t).getTick t

/-- No clock of `m'` is behind the same clock of `m`. -/
structure Grows (m m' : VarMeta) : Prop where
  /-- Clocks of threads. -/
  thread : ∀ s c, (m.threadVc s).getTick c ≤ (m'.threadVc s).getTick c
  /-- Clocks of synchronisation variables. -/
  syncVar : ∀ a c, (m.syncVarVcTable a).getTick c ≤ (m'.syncVarVcTable a).getTick c

theorem Grows.trans {m₁ m₂ m₃ : VarMeta} (h : Grows m₁ m₂) (h' : Grows m₂ m₃) : Grows m₁ m₃ :=
  ⟨fun s c => (h.thread s c).trans (h'.thread s c), fun a c => (h.syncVar a c).trans (h'.syncVar a c)⟩

theorem SameClocks.grows {m m' : VarMeta} (h : SameClocks m m') : Grows m m' :=
  ⟨fun _ _ => by rw [h.threadVc], fun _ _ => by rw [h.syncVarVcTable]⟩

/-! ### What the updates do -/

variable {m m' : VarMeta} {e : Event} {t r : Fin MAX_THREAD}

theorem Grows.refl (m : VarMeta) : Grows m m := (SameClocks.refl m).grows

theorem Grows.clocks_le (h : Grows m m') (x : Node) (c : Fin MAX_THREAD) :
    m.clocks x c ≤ m'.clocks x c := by
  rcases x.cases_range with ⟨s, rfl⟩ | ⟨a, rfl⟩ | ⟨s, hs, rfl⟩
  · simpa using h.thread s c
  · simpa using h.syncVar a c
  · rw [clocks_out_of_range _ hs, clocks_out_of_range _ hs]

theorem grows_initThreadVC (m : VarMeta) (t : Fin MAX_THREAD) : Grows m (m.initThreadVC t) :=
  ⟨m.getTick_le_initThreadVC t, fun _ _ => by rw [initThreadVC_syncVarVcTable]⟩

theorem grows_passToThread (m : VarMeta) (t r : Fin MAX_THREAD) : Grows m (m.passToThread t r) := by
  refine ⟨fun s c => ?_, fun _ _ => le_rfl⟩
  rw [passToThread_threadVc]
  split_ifs with h₁ h₂
  · rw [h₁]
    exact VectorClock.getTick_le_incTick _ _ _
  · rw [h₂]
    exact le_max_left _ _
  · rfl

theorem grows_takeFromThread (m : VarMeta) (t r : Fin MAX_THREAD) :
    Grows m (m.takeFromThread t r) := by
  refine ⟨fun s c => ?_, fun _ _ => le_rfl⟩
  rw [takeFromThread_threadVc]
  split_ifs with h₁ h₂
  · rw [h₁]
    exact VectorClock.getTick_le_incTick _ _ _
  · rw [h₂]
    exact le_max_left _ _
  · rfl

theorem grows_passToVar (m : VarMeta) (t : Fin MAX_THREAD) (a : Addr) : Grows m (m.passToVar t a) := by
  refine ⟨fun s c => ?_, fun b c => ?_⟩
  · rw [passToVar_threadVc]
    split_ifs with h
    · rw [h]
      exact VectorClock.getTick_le_incTick _ _ _
    · rfl
  · rw [passToVar_syncVarVcTable]
    split_ifs with h
    · rw [h]
      exact le_max_left _ _
    · rfl

theorem grows_takeFromVar (m : VarMeta) (t : Fin MAX_THREAD) (a : Addr) :
    Grows m (m.takeFromVar t a) := by
  refine ⟨fun s c => ?_, fun _ _ => le_rfl⟩
  rw [takeFromVar_threadVc]
  split_ifs with h
  · rw [h]
    exact le_max_left _ _
  · rfl

/-- The updates only raise clocks. -/
theorem HbUpdate.grows (h : HbUpdate m e t m') : Grows m m' := by
  cases h with
  | @create r => exact (grows_initThreadVC m r).trans (grows_passToThread _ t r)
  | @join r => exact (grows_initThreadVC m r).trans (grows_takeFromThread _ t r)
  | release => exact grows_passToVar m t _
  | acquire => exact grows_takeFromVar m t _
  | internal => exact .refl m

/-! ### What the clocks hold -/

/-- Freshness, with the threads whose clocks are in use. -/
structure Ticks (m : VarMeta) : Prop where
  /-- A thread is ahead of what others hold of it. -/
  fresh : Fresh home m.clocks
  /-- The clocks in use are those that hold a tick of their own thread. -/
  inUse : ∀ t, m.isThreadVcInit t ↔ 0 < (m.threadVc t).getTick t

theorem ticks_init : Ticks init where
  fresh := fun c x _ => Or.inr (by cases x <;> simp [clocks, init])
  inUse := fun t => by simp [init]

theorem Ticks.congr (h : Ticks m) (hm : SameClocks m m') : Ticks m' where
  fresh := hm.clocks_eq ▸ h.fresh
  inUse := hm.threadVc ▸ hm.isThreadVcInit ▸ h.inUse

theorem Ticks.initThreadVC (h : Ticks m) (t : Fin MAX_THREAD) : Ticks (m.initThreadVC t) := by
  have hown := fun c => (grows_initThreadVC m t).clocks_le (home c) c
  constructor
  · intro c x hx
    have hle := (clocks_initThreadVC m t hx).le
    exact h.fresh.take (hown c) hx (z := x) (by omega) fun hxc => absurd hxc hx
  · intro s
    unfold VarMeta.initThreadVC
    split_ifs with hi
    · exact h.inUse s
    · by_cases hst : s = t
      · subst hst
        simp
      · simpa [hst] using h.inUse s

/-- The nodes may take over what node `z` holds, where `z` is a variable or a thread that ticks. -/
theorem Ticks.take (h : Ticks m) (z : Node) (hinit : m'.isThreadVcInit = m.isThreadVcInit)
    (hg : Grows m m') (hown : ∀ s, ¬ m.isThreadVcInit s → m'.threadVc s = m.threadVc s)
    (hle : ∀ c x, x ≠ home c → m'.clocks x c ≤ max (m.clocks x c) (m.clocks z c))
    (hadv : ∀ c, z = home c → m.clocks (home c) c < m'.clocks (home c) c) : Ticks m' := by
  refine ⟨fun c x hx => ?_, fun s => ?_⟩
  · exact h.fresh.take (hg.clocks_le (home c) c) hx (hle c x hx) (hadv c)
  · rw [hinit]
    by_cases hs : m.isThreadVcInit s
    · simp only [hs, true_iff]
      exact ((h.inUse s).mp hs).trans_le (hg.thread s s)
    · rw [hown s hs]
      exact h.inUse s

theorem ne_of_not_inUse {s : Fin MAX_THREAD} (ht : m.isThreadVcInit t) (hs : ¬ m.isThreadVcInit s) :
    s ≠ t := by
  rintro rfl
  exact hs ht

section Update

variable (h : Ticks m) (ht : m.isThreadVcInit t)

include h ht

theorem Ticks.passToThread (hr : m.isThreadVcInit r) : Ticks (m.passToThread t r) := by
  refine h.take (home t) rfl (grows_passToThread m t r) (fun s hs => ?_) (fun c x hx => ?_)
    fun c hc => ?_
  · rw [passToThread_threadVc, if_neg (ne_of_not_inUse ht hs), if_neg (ne_of_not_inUse hr hs)]
  · rcases x.cases_range with ⟨s, rfl⟩ | ⟨a, rfl⟩ | ⟨s, hs, rfl⟩
    · rw [clocks_home, clocks_home, clocks_home, passToThread_threadVc]
      split_ifs with h₁ h₂
      · have hct : c ≠ t := fun h => hx (by rw [h₁, h])
        rw [VectorClock.incTick_of_ne _ hct]
        exact le_max_right _ _
      · rw [h₂, VectorClock.merge_getTick]
      · exact le_max_left _ _
    · exact le_max_left _ _
    · rw [clocks_out_of_range _ hs]
      exact Nat.zero_le _
  · obtain rfl := home_injective hc
    simp [passToThread_threadVc]

theorem Ticks.takeFromThread (hr : m.isThreadVcInit r) : Ticks (m.takeFromThread t r) := by
  refine h.take (home r) rfl (grows_takeFromThread m t r) (fun s hs => ?_) (fun c x hx => ?_)
    fun c hc => ?_
  · rw [takeFromThread_threadVc, if_neg (ne_of_not_inUse hr hs), if_neg (ne_of_not_inUse ht hs)]
  · rcases x.cases_range with ⟨s, rfl⟩ | ⟨a, rfl⟩ | ⟨s, hs, rfl⟩
    · rw [clocks_home, clocks_home, clocks_home, takeFromThread_threadVc]
      split_ifs with h₁ h₂
      · have hcr : c ≠ r := fun h => hx (by rw [h₁, h])
        rw [VectorClock.incTick_of_ne _ hcr]
        exact le_max_right _ _
      · rw [h₂, VectorClock.merge_getTick]
      · exact le_max_left _ _
    · exact le_max_left _ _
    · rw [clocks_out_of_range _ hs]
      exact Nat.zero_le _
  · obtain rfl := home_injective hc
    simp [takeFromThread_threadVc]

theorem Ticks.passToVar (a : Addr) : Ticks (m.passToVar t a) := by
  refine h.take (home t) rfl (grows_passToVar m t a) (fun s hs => ?_) (fun c x hx => ?_)
    fun c hc => ?_
  · rw [passToVar_threadVc, if_neg (ne_of_not_inUse ht hs)]
  · rcases x.cases_range with ⟨s, rfl⟩ | ⟨b, rfl⟩ | ⟨s, hs, rfl⟩
    · rw [clocks_home, clocks_home, clocks_home, passToVar_threadVc]
      split_ifs with h₁
      · have hct : c ≠ t := fun h => hx (by rw [h₁, h])
        rw [VectorClock.incTick_of_ne _ hct]
        exact le_max_right _ _
      · exact le_max_left _ _
    · rw [clocks_var, clocks_var, clocks_home, passToVar_syncVarVcTable]
      split_ifs with h₁
      · rw [h₁, VectorClock.merge_getTick]
      · exact le_max_left _ _
    · rw [clocks_out_of_range _ hs]
      exact Nat.zero_le _
  · obtain rfl := home_injective hc
    simp [passToVar_threadVc]

theorem Ticks.takeFromVar (a : Addr) : Ticks (m.takeFromVar t a) := by
  refine h.take (.var a) rfl (grows_takeFromVar m t a) (fun s hs => ?_) (fun c x hx => ?_)
    fun c hc => by cases hc
  · rw [takeFromVar_threadVc, if_neg (ne_of_not_inUse ht hs)]
  · rcases x.cases_range with ⟨s, rfl⟩ | ⟨b, rfl⟩ | ⟨s, hs, rfl⟩
    · rw [clocks_home, clocks_home, clocks_var, takeFromVar_threadVc]
      split_ifs with h₁
      · rw [h₁, VectorClock.merge_getTick]
      · exact le_max_left _ _
    · exact le_max_left _ _
    · rw [clocks_out_of_range _ hs]
      exact Nat.zero_le _

/-- An update keeps the clocks fresh. -/
theorem Ticks.update (hup : HbUpdate m e t m') : Ticks m' := by
  cases hup with
  | @create r =>
    exact (h.initThreadVC r).passToThread (initThreadVC_isThreadVcInit ht r) (initThreadVC_isInit m r)
  | @join r =>
    exact (h.initThreadVC r).takeFromThread (initThreadVC_isThreadVcInit ht r) (initThreadVC_isInit m r)
  | release => exact h.passToVar ht _
  | acquire => exact h.takeFromVar ht _
  | internal => exact h

end Update

/-! ### What the sets hold -/

theorem mem_of_mem_emplace {ops : List Operation} {op o : Operation} (h : o ∈ emplace ops op) :
    o ∈ ops ∨ o = op := by
  unfold emplace at h
  split_ifs at h
  · exact Or.inl h
  · rcases List.mem_append.mp h with h | h
    · exact Or.inl (List.takeWhile_subset _ h)
    · rcases List.mem_cons.mp h with rfl | h
      · exact Or.inr rfl
      · exact Or.inl (List.dropWhile_subset _ h)

/-- What a call stores: at most an operation of thread `t`, with a copy of its clock. -/
def Stores (m m' : VarMeta) (t : Fin MAX_THREAD) : Prop :=
  ∀ op, m'.Stored op → m.Stored op ∨ t.val = op.getEvent.evt.tid ∧ op.getVC = m'.threadVc t

@[simp] theorem stored_initThreadVC {op : Operation} : (m.initThreadVC t).Stored op ↔ m.Stored op := by
  simp [Stored]

/-- The updates store nothing. -/
theorem HbUpdate.stored (h : HbUpdate m e t m') {op : Operation} (hop : m'.Stored op) :
    m.Stored op := by
  cases h with
  | @create r =>
    have hr : (m.initThreadVC r).Stored op := hop
    exact stored_initThreadVC.mp hr
  | @join r =>
    have hr : (m.initThreadVC r).Stored op := hop
    exact stored_initThreadVC.mp hr
  | release => exact hop
  | acquire => exact hop
  | internal => exact hop

theorem mem_update {f : Addr → List Operation} {l : List Operation} {a b : Addr} {op : Operation}
    (h : op ∈ Function.update f a l b) : op ∈ l ∨ op ∈ f b := by
  by_cases hba : b = a
  · subst hba
    exact Or.inl (by simpa using h)
  · exact Or.inr (by simpa [hba] using h)

theorem putRead_stores {p : EventPtr} (h : m.putRead p = .ok m') :
    ∃ t, SameClocks (m.initThreadVC t) m' ∧ Stores m m' t := by
  obtain ⟨⟨t, m₁⟩, ht, h⟩ := bind_eq_ok.mp h
  obtain ⟨htid, rfl⟩ := getThreadVC_eq_ok.mp ht
  obtain rfl := pure_eq_ok.mp h
  refine ⟨t, ⟨rfl, rfl, rfl⟩, ?_⟩
  rintro op ⟨b, hr | hw | hs⟩
  · rcases mem_update hr with hr | hr
    · rcases mem_of_mem_emplace hr with hr | rfl
      · exact Or.inl ⟨_, Or.inl (by simpa using hr)⟩
      · exact Or.inr ⟨htid, rfl⟩
    · exact Or.inl ⟨b, Or.inl (by simpa using hr)⟩
  · exact Or.inl ⟨b, Or.inr (Or.inl (by simpa using hw))⟩
  · exact Or.inl ⟨b, Or.inr (Or.inr (by simpa using hs))⟩

theorem putWrite_stores {p : EventPtr} (h : m.putWrite p = .ok m') :
    ∃ t, SameClocks (m.initThreadVC t) m' ∧ Stores m m' t := by
  obtain ⟨⟨t, m₁⟩, ht, h⟩ := bind_eq_ok.mp h
  obtain ⟨htid, rfl⟩ := getThreadVC_eq_ok.mp ht
  obtain rfl := pure_eq_ok.mp h
  refine ⟨t, ⟨rfl, rfl, rfl⟩, ?_⟩
  -- both sets of the address are emptied before
  rintro op ⟨b, hr | hw | hs⟩
  · rcases mem_update hr with hr | hr
    · cases hr
    · exact Or.inl ⟨b, Or.inl (by simpa using hr)⟩
  · rcases mem_update hw with hw | hw
    · rcases mem_of_mem_emplace hw with hw | rfl
      · cases hw
      · exact Or.inr ⟨htid, rfl⟩
    · exact Or.inl ⟨b, Or.inr (Or.inl (by simpa using hw))⟩
  · exact Or.inl ⟨b, Or.inr (Or.inr (by simpa using hs))⟩

theorem putSyncRel_stores {p : EventPtr} (h : m.putSyncRel p = .ok m') :
    ∃ t, SameClocks (m.initThreadVC t) m' ∧ Stores m m' t := by
  unfold putSyncRel at h
  split_ifs at h
  obtain ⟨⟨t, m₁⟩, ht, h⟩ := bind_eq_ok.mp h
  obtain ⟨htid, rfl⟩ := getThreadVC_eq_ok.mp ht
  obtain rfl := pure_eq_ok.mp h
  refine ⟨t, ⟨rfl, rfl, rfl⟩, ?_⟩
  rintro op ⟨b, hr | hw | hs⟩
  · exact Or.inl ⟨b, Or.inl (by simpa using hr)⟩
  · exact Or.inl ⟨b, Or.inr (Or.inl (by simpa using hw))⟩
  · rcases mem_update hs with hs | hs
    · rcases mem_of_mem_emplace hs with hs | rfl
      · exact Or.inl ⟨_, Or.inr (Or.inr (by simpa using hs))⟩
      · exact Or.inr ⟨htid, rfl⟩
    · exact Or.inl ⟨b, Or.inr (Or.inr (by simpa using hs))⟩

/-- What `putRead`, `putWrite` and `putSyncRel` store. -/
theorem put_stores {p : EventPtr}
    (h : m.putRead p = .ok m' ∨ m.putWrite p = .ok m' ∨ m.putSyncRel p = .ok m') :
    ∃ t, SameClocks (m.initThreadVC t) m' ∧ Stores m m' t := by
  rcases h with h | h | h
  · exact putRead_stores h
  · exact putWrite_stores h
  · exact putSyncRel_stores h

theorem stored_clearSyncRel {p : EventPtr} {op : Operation} (h : (m.clearSyncRel p).Stored op) :
    m.Stored op := by
  obtain ⟨b, hr | hw | hs⟩ := h
  · exact ⟨b, Or.inl hr⟩
  · exact ⟨b, Or.inr (Or.inl hw)⟩
  · rcases mem_update hs with hs | hs
    · cases hs
    · exact ⟨b, Or.inr (Or.inr hs)⟩

/-! ### Calls -/

/-- **What a call does**: it updates the clocks, or initialises one and stores a copy of it, or
leaves the clocks alone. -/
theorem call_cases {c : MetaCall} (h : m.call c = some m') :
    (∃ e t, HbUpdate (m.initThreadVC t) e t m') ∨
      (∃ t, SameClocks (m.initThreadVC t) m' ∧ Stores m m' t) ∨
      SameClocks m m' ∧ ∀ op, m'.Stored op → m.Stored op := by
  cases c with
  | updateHB e =>
    obtain ⟨t, -, hup⟩ := updateHB_update (toOption_eq_some.mp h)
    exact Or.inl ⟨e, t, hup⟩
  | putRead p => exact Or.inr (Or.inl (put_stores (Or.inl (toOption_eq_some.mp h))))
  | putWrite p => exact Or.inr (Or.inl (put_stores (Or.inr (Or.inl (toOption_eq_some.mp h)))))
  | clearSyncRel p =>
    cases h
    exact Or.inr (Or.inr ⟨⟨rfl, rfl, rfl⟩, fun op => stored_clearSyncRel⟩)
  | putSyncRel p => exact Or.inr (Or.inl (put_stores (Or.inr (Or.inr (toOption_eq_some.mp h)))))
  | getRaceEvents e =>
    obtain ⟨⟨ret, m₁⟩, hret, rfl⟩ := map_eq_ok.mp (toOption_eq_some.mp h)
    obtain ⟨t, -, rfl⟩ := getRaceEvents_meta hret
    exact Or.inr (Or.inl ⟨t, .refl _, fun op hop => Or.inl (stored_initThreadVC.mp hop)⟩)
  | getSyncHbEvents e =>
    obtain ⟨ret, -, rfl⟩ := map_eq_ok.mp (toOption_eq_some.mp h)
    exact Or.inr (Or.inr ⟨.refl _, fun op => id⟩)

theorem call_grows {c : MetaCall} (h : m.call c = some m') : Grows m m' := by
  rcases call_cases h with ⟨e, t, hup⟩ | ⟨t, hsame, -⟩ | ⟨hsame, -⟩
  · exact (grows_initThreadVC m t).trans hup.grows
  · exact (grows_initThreadVC m t).trans hsame.grows
  · exact hsame.grows

theorem Ticks.call {c : MetaCall} (ht : Ticks m) (h : m.call c = some m') : Ticks m' := by
  rcases call_cases h with ⟨e, t, hup⟩ | ⟨t, hsame, -⟩ | ⟨hsame, -⟩
  · exact (ht.initThreadVC t).update (initThreadVC_isInit m t) hup
  · exact (ht.initThreadVC t).congr hsame
  · exact ht.congr hsame

/-- Operations that are not ahead of their threads' clocks. -/
def Behind (m : VarMeta) (op : Operation) : Prop :=
  ∃ t : Fin MAX_THREAD, t.val = op.getEvent.evt.tid ∧
    ∀ c, op.getVC.getTick c ≤ (m.threadVc t).getTick c

theorem Behind.grows {op : Operation} (h : Behind m op) (hg : Grows m m') : Behind m' op := by
  obtain ⟨t, ht, hle⟩ := h
  exact ⟨t, ht, fun c => (hle c).trans (hg.thread t c)⟩

theorem behind_call {c : MetaCall} (hm : ∀ op, m.Stored op → m.Behind op)
    (h : m.call c = some m') : ∀ op, m'.Stored op → m'.Behind op := by
  intro op hop
  have hg := call_grows h
  rcases call_cases h with ⟨e, t, hup⟩ | ⟨t, -, hst⟩ | ⟨-, hst⟩
  · exact (hm op (stored_initThreadVC.mp (hup.stored hop))).grows hg
  · rcases hst op hop with hold | ⟨htid, hvc⟩
    · exact (hm op hold).grows hg
    · exact ⟨t, htid, fun c => by rw [hvc]⟩
  · exact (hm op (hst op hop)).grows hg

theorem Ticks.toOwnTicks (h : Ticks m) (hs : ∀ op, m.Stored op → m.Behind op) : OwnTicks m := by
  have hthr : ∀ t s : Fin MAX_THREAD, s ≠ t →
      (m.threadVc s).getTick t < (m.threadVc t).getTick t ∨ (m.threadVc s).getTick t = 0 := by
    intro t s hst
    simpa using h.fresh t (home s) fun hhome => hst (home_injective hhome)
  have hvar : ∀ (t : Fin MAX_THREAD) (a : Addr),
      (m.syncVarVcTable a).getTick t < (m.threadVc t).getTick t ∨
        (m.syncVarVcTable a).getTick t = 0 := by
    intro t a
    simpa using h.fresh t (.var a) fun hhome => by cases hhome
  refine ⟨fun t s hst hi => ?_, fun t a hi => ?_, fun t s hst hi => ?_, fun t a hi => ?_,
    fun op hop => ?_⟩
  · have hpos := (h.inUse t).mp hi
    have := hthr t s hst
    omega
  · have hpos := (h.inUse t).mp hi
    have := hvar t a
    omega
  · have hzero : ¬ 0 < (m.threadVc t).getTick t := fun hpos => hi ((h.inUse t).mpr hpos)
    have := hthr t s hst
    omega
  · have hzero : ¬ 0 < (m.threadVc t).getTick t := fun hpos => hi ((h.inUse t).mpr hpos)
    have := hvar t a
    omega
  · obtain ⟨t, ht, hle⟩ := hs op hop
    exact ⟨t, ht, hle t⟩

/-! ### How far clocks get -/

/-- No clock holds a tick above `b`. -/
structure AtMost (m : VarMeta) (b : ℕ) : Prop where
  /-- Clocks of threads. -/
  thread : ∀ s c, (m.threadVc s).getTick c ≤ b
  /-- Clocks of synchronisation variables. -/
  syncVar : ∀ a c, (m.syncVarVcTable a).getTick c ≤ b

variable {b : ℕ}

theorem AtMost.congr (h : AtMost m b) (hm : SameClocks m m') : AtMost m' b :=
  ⟨hm.threadVc ▸ h.thread, hm.syncVarVcTable ▸ h.syncVar⟩

theorem initThreadVC_self (hi : ¬ m.isThreadVcInit t) :
    (m.initThreadVC t).threadVc t = (m.threadVc t).incTick t := by
  unfold initThreadVC
  rw [if_neg hi]
  exact Function.update_self _ _ _

theorem AtMost.initThreadVC (h : AtMost m b) (hb : 0 < b) (ht : Ticks m) (t : Fin MAX_THREAD) :
    AtMost (m.initThreadVC t) b := by
  refine ⟨fun s c => ?_, fun a c => ?_⟩
  · by_cases hst : s = t
    · by_cases hi : m.isThreadVcInit t
      · rw [initThreadVC_of_isInit hi]
        exact h.thread s c
      have hzero := mt (ht.inUse t).mpr hi
      rw [hst, initThreadVC_self hi]
      by_cases hct : c = t
      · rw [hct, VectorClock.incTick_self]
        omega
      · rw [VectorClock.incTick_of_ne _ hct]
        exact h.thread t c
    · rw [initThreadVC_of_ne m hst]
      exact h.thread s c
  · rw [initThreadVC_syncVarVcTable]
    exact h.syncVar a c

/-- The clocks that an update writes: merged with another clock, or with a tick more. -/
theorem AtMost.update (h : AtMost m b) (hb : 0 < b) (ht : Ticks m) (hup : HbUpdate m e t m') :
    AtMost m' (b + 1) := by
  have htick : ∀ {vc : VectorClock} {s : Fin MAX_THREAD}, (∀ c, vc.getTick c ≤ b) →
      ∀ c, (vc.incTick s).getTick c ≤ b + 1 := fun hvc c =>
    (VectorClock.incTick_le _ _ c).trans (Nat.succ_le_succ (hvc c))
  have hmerge : ∀ {vc other : VectorClock}, (∀ c, vc.getTick c ≤ b) → (∀ c, other.getTick c ≤ b) →
      ∀ c, (vc.merge other).getTick c ≤ b + 1 := fun hvc hother c =>
    (max_le (hvc c) (hother c)).trans b.le_succ
  cases hup with
  | @create r =>
    have hr := h.initThreadVC hb ht r
    refine ⟨fun s c => ?_, fun a c => (hr.syncVar a c).trans b.le_succ⟩
    rw [passToThread_threadVc]
    split_ifs
    · exact htick (hr.thread t) c
    · exact hmerge (hr.thread r) (hr.thread t) c
    · exact (hr.thread s c).trans b.le_succ
  | @join r =>
    have hr := h.initThreadVC hb ht r
    refine ⟨fun s c => ?_, fun a c => (hr.syncVar a c).trans b.le_succ⟩
    rw [takeFromThread_threadVc]
    split_ifs
    · exact htick (hr.thread r) c
    · exact hmerge (hr.thread t) (hr.thread r) c
    · exact (hr.thread s c).trans b.le_succ
  | release =>
    refine ⟨fun s c => ?_, fun a c => ?_⟩
    · rw [passToVar_threadVc]
      split_ifs
      · exact htick (h.thread t) c
      · exact (h.thread s c).trans b.le_succ
    · rw [passToVar_syncVarVcTable]
      split_ifs
      · exact hmerge (h.syncVar _) (h.thread t) c
      · exact (h.syncVar a c).trans b.le_succ
  | acquire =>
    refine ⟨fun s c => ?_, fun a c => (h.syncVar a c).trans b.le_succ⟩
    rw [takeFromVar_threadVc]
    split_ifs
    · exact hmerge (h.thread t) (h.syncVar _) c
    · exact (h.thread s c).trans b.le_succ
  | internal => exact ⟨fun s c => (h.thread s c).trans b.le_succ, fun a c => (h.syncVar a c).trans b.le_succ⟩

theorem AtMost.call {c : MetaCall} (h : AtMost m b) (hb : 0 < b) (ht : Ticks m)
    (hc : m.call c = some m') : AtMost m' (b + 1) := by
  have hmono : ∀ {m : VarMeta}, AtMost m b → AtMost m (b + 1) := fun h =>
    ⟨fun s c => (h.thread s c).trans b.le_succ, fun a c => (h.syncVar a c).trans b.le_succ⟩
  rcases call_cases hc with ⟨e, t, hup⟩ | ⟨t, hsame, -⟩ | ⟨hsame, -⟩
  · exact (h.initThreadVC hb ht t).update hb (ht.initThreadVC t) hup
  · exact hmono ((h.initThreadVC hb ht t).congr hsame)
  · exact hmono (h.congr hsame)

/-! ### Runs -/

variable {cs : List MetaCall}

theorem exec_grows (h : exec call m cs = some m') : Grows m m' := by
  apply exec_invariant (I := fun _ m₁ => Grows m m₁) h (.refl m)
  intro _ m₁ c m₂ hg hstep
  exact hg.trans (call_grows hstep)

theorem ticks_exec (h : exec call init cs = some m) : Ticks m :=
  exec_invariant (I := fun _ => Ticks) h ticks_init fun _ _ _ _ ht hstep => ht.call hstep

theorem behind_exec (h : exec call init cs = some m) : ∀ op, m.Stored op → m.Behind op := by
  refine exec_invariant (I := fun _ m => ∀ op, m.Stored op → m.Behind op) h (fun op hop => ?_)
    fun _ _ _ _ hm hstep => behind_call hm hstep
  obtain ⟨a, h | h | h⟩ := hop <;> cases h

/-- After `n` calls no tick is above `n + 1`. -/
theorem getTick_le_calls (h : exec call init cs = some m) : AtMost m (cs.length + 1) := by
  refine (exec_invariant (I := fun cs m => Ticks m ∧ AtMost m (cs.length + 1)) h ⟨ticks_init, ?_⟩
    fun cs m₁ c m₂ hm hstep => ⟨hm.1.call hstep, ?_⟩).2
  · exact ⟨fun s c => Nat.zero_le _, fun a c => Nat.zero_le _⟩
  · rw [List.length_append]
    exact hm.2.call (Nat.succ_pos _) hm.1 hstep

end VarMeta

open VarMeta

/-- **Own ticks**: in every state that calls of the methods reach, what a clock holds of
another thread is behind what that thread's clock holds of itself, stored operations are not
ahead of their threads, and no further calls set a clock back. -/
theorem ownTicks {cs : List MetaCall} {m : VarMeta} (h : exec call init cs = some m) :
    OwnTicks m ∧ ∀ cs' m', exec call m cs' = some m' → Grows m m' :=
  ⟨(ticks_exec h).toOwnTicks (behind_exec h), fun _ _ => exec_grows⟩

/-- Thread 0 creates thread 1, which unlocks a mutex that thread 0 locks, creates thread 1 once
more and joins it. -/
def createJoinCalls : List MetaCall :=
  [.updateHB ⟨1, 0, 0, 0, .create, 0, 1⟩, .updateHB ⟨2, 1, 8, 0, .unlock, 1, 0⟩,
    .updateHB ⟨3, 2, 8, 0, .lock, 0, 0⟩, .putRead ⟨3, ⟨4, 3, 16, 1, .ld, 0, 0⟩⟩,
    .updateHB ⟨1, 4, 0, 0, .create, 0, 1⟩, .updateHB ⟨5, 5, 0, 0, .join, 0, 1⟩]

theorem ownTicks_createJoinCalls :
    ∃ m, exec call init createJoinCalls = some m ∧
      OwnTicks m ∧ ∀ cs' m', exec call m cs' = some m' → Grows m m' := by
  obtain ⟨m, hm⟩ : ∃ m, exec call init createJoinCalls = some m := ⟨_, rfl⟩
  exact ⟨m, hm, ownTicks hm⟩

/-! ### The analysis -/

namespace RaceAnalyze

variable {isSyncVar : Addr → Bool} {ra ra' : RaceAnalyze} {p : EventPtr}

theorem exec_one {m m' : VarMeta} {c : MetaCall} (h : m.call c = some m') : exec call m [c] = some m' := by
  rw [exec, h]
  rfl

theorem handleSyncRel_calls (h : ra.handleSyncRel p = .ok ra') :
    ∃ cs, exec call ra.varMeta cs = some ra'.varMeta := by
  unfold handleSyncRel at h
  split_ifs at h
  · obtain ⟨_, -, h⟩ := bind_eq_ok.mp h
    obtain ⟨ra₁, hra₁, h⟩ := bind_eq_ok.mp h
    obtain rfl := pure_eq_ok.mp h
    rw [← addSyncHbs_varMeta hra₁]
    exact ⟨[.clearSyncRel p], rfl⟩
  · obtain ⟨m, hm, h⟩ := bind_eq_ok.mp h
    obtain rfl := pure_eq_ok.mp h
    exact ⟨[.putSyncRel p], exec_one (toOption_eq_some.mpr hm)⟩
  · obtain rfl := pure_eq_ok.mp h
    exact ⟨[], rfl⟩

theorem handleVarAccessEvent_calls (h : ra.handleVarAccessEvent p = .ok ra') :
    ∃ cs, exec call ra.varMeta cs = some ra'.varMeta := by
  obtain ⟨⟨ret, m⟩, hret, h⟩ := bind_eq_ok.mp h
  obtain ⟨ra₁, hra₁, h⟩ := bind_eq_ok.mp h
  have hm : ra₁.varMeta = m := addRaces_varMeta hra₁
  have hget : exec call ra.varMeta [.getRaceEvents p.evt] = some m :=
    exec_one (toOption_eq_some.mpr (map_eq_ok.mpr ⟨_, hret, rfl⟩))
  split_ifs at h
  · obtain ⟨m', hm', h⟩ := bind_eq_ok.mp h
    obtain rfl := pure_eq_ok.mp h
    rw [hm] at hm'
    have hput := exec_one (c := .putRead p) (toOption_eq_some.mpr hm')
    exact ⟨_, exec_append_eq_some.mpr ⟨_, hget, hput⟩⟩
  · obtain ⟨m', hm', h⟩ := bind_eq_ok.mp h
    obtain rfl := pure_eq_ok.mp h
    rw [hm] at hm'
    have hput := exec_one (c := .putWrite p) (toOption_eq_some.mpr hm')
    exact ⟨_, exec_append_eq_some.mpr ⟨_, hget, hput⟩⟩
  · obtain rfl := pure_eq_ok.mp h
    exact ⟨_, hm ▸ hget⟩

/-- What an event does to `VarMeta` is done by calls. -/
theorem handleEvent_calls (h : ra.handleEvent isSyncVar p = .ok ra') :
    ∃ cs, exec call ra.varMeta cs = some ra'.varMeta := by
  rcases handleEvent_cases h with ⟨-, h⟩ | ⟨-, -, -, h⟩
  · obtain ⟨ra₁, hra₁, h⟩ := bind_eq_ok.mp h
    obtain ⟨m', hm', h⟩ := bind_eq_ok.mp h
    obtain rfl := pure_eq_ok.mp h
    obtain ⟨cs, hcs⟩ := handleSyncRel_calls hra₁
    have hup := exec_one (c := .updateHB p.evt) (toOption_eq_some.mpr hm')
    exact ⟨cs ++ [.updateHB p.evt], exec_append_eq_some.mpr ⟨_, hcs, hup⟩⟩
  · exact handleVarAccessEvent_calls h

/-- The analysis only ever holds clocks that calls of the methods reach. -/
theorem stateAt_calls {evts : List Event} {k : ℕ} (hk : k ≤ evts.length)
    (h : stateAt isSyncVar evts k = .ok ra) : ∃ cs, exec call VarMeta.init cs = some ra.varMeta := by
  refine run_induction (P := fun _ ra => ∃ cs, exec call VarMeta.init cs = some ra.varMeta) ⟨[], rfl⟩
    (fun _ _ _ _ _ _ hcs hstep => ?_) hk h
  obtain ⟨cs, hcs⟩ := hcs
  obtain ⟨cs', hcs'⟩ := handleEvent_calls hstep
  exact ⟨cs ++ cs', exec_append_eq_some.mpr ⟨_, hcs, hcs'⟩⟩

end RaceAnalyze

end Schnauzer
