import Schnauzer.Depgraph.RaceAnalyze

/-!
# Loading a trace

`analyze/depgraph/LoadTrace`: the events of a trace file become the events of a dependence graph. An
access of several bytes becomes one access for each of them; accesses to addresses that no second
thread accesses, or that nobody stores to, are left out.

A trace file is the list of the events that `Event::loadEvent` reads from it. The map `last_accessor` is a partial
function.

## What is proved

* `LoaderInv.addEvent` — what the loop knows about the addresses it has met.
* `loadTrace_eq_ok` — the graph that is loaded: the expanded events without those that are left out.
* `loadTrace_ok_iff` — which files are loaded.
-/

namespace Schnauzer

/-- `DepGraph::loadTrace`: what the loop has stored in the graph, and its local variables. -/
structure Loader where
  /-- `tot_events_`. -/
  totEvents : List Event
  /-- `shared_vars_`. -/
  sharedVars : Finset Addr
  /-- `sync_vars_`. -/
  syncVars : Finset Addr
  /-- `last_accessor`. -/
  lastAccessor : Addr → Option ℕ
  /-- `has_written`. -/
  hasWritten : Finset Addr

namespace Loader

/-- In front of the loop. -/
def init : Loader := ⟨[], ∅, ∅, fun _ => none, ∅⟩

/-- `DepGraph::addTotalEvent`. -/
def addTotalEvent (ld : Loader) (evt : Event) : Loader := { ld with totEvents := ld.totEvents ++ [evt] }

/-- The body of the loop over the bytes of an access. -/
def addByte (ld : Loader) (evtExpand : Event) : Except Abort Loader :=
  let ld := ld.addTotalEvent evtExpand
  let addr := evtExpand.varAddr
  let ld := if evtExpand.opTy = .st then { ld with hasWritten := insert addr ld.hasWritten } else ld
  if addr ∈ ld.sharedVars then .ok ld
  else do
    let tid ← evtExpand.getThread
    match ld.lastAccessor addr with
    | some last => return if last ≠ tid then { ld with sharedVars := insert addr ld.sharedVars } else ld
    | none => return { ld with lastAccessor := Function.update ld.lastAccessor addr (some tid) }

/-- The loop over the bytes of an access. -/
def addBytes (ld : Loader) : List Event → Except Abort Loader
  | [] => .ok ld
  | evt :: evts => do
    let ld ← ld.addByte evt
    ld.addBytes evts

/-- The body of the loop over the events. -/
def addEvent (ld : Loader) (evt : Event) : Except Abort Loader :=
  if evt.isSyncOpEvent then .ok ({ ld with syncVars := insert evt.varAddr ld.syncVars }.addTotalEvent evt)
  else if evt.isAccessEvent then do
    let len ← evt.getLength
    ld.addBytes ((List.range len).map evt.expandArrayAccessEvent)
  else if evt.isThreadOpEvent then .ok (ld.addTotalEvent evt)
  else if evt.isFuncCallEvent then .ok ld
  else .error .loadTrace

/-- The loop, from the event at position `assertCnt` on; the `assert` is that of `TraceParser::nextEvent`. -/
def loop : List Event → ℕ → Loader → Except Abort Loader
  | [], _, ld => .ok ld
  | evt :: evts, assertCnt, ld =>
    if assertCnt ≠ evt.timestamp then .error .nextEvent
    else do
      let ld ← ld.addEvent evt
      loop evts (assertCnt + 1) ld

/-- The events that stay: no access to an address that is not shared. -/
def keeps (sharedVars : Finset Addr) (evt : Event) : Bool :=
  !((evt.opTy = .ld || evt.opTy = .st) && !decide (evt.varAddr ∈ sharedVars))

/-- What follows the loop: read-only addresses are not shared, and accesses to other addresses are removed. -/
def finish (ld : Loader) : DepGraph :=
  let sharedVars := ld.sharedVars.filter (· ∈ ld.hasWritten)
  ⟨ld.totEvents.filter (keeps sharedVars), sharedVars, ld.syncVars⟩

end Loader

/-- `DepGraph::loadTrace`. -/
def loadTrace (file : List Event) : Except Abort DepGraph := do
  let ld ← Loader.loop file 0 .init
  return ld.finish

/-! ### The expanded events -/

/-- The events of the graph for one event of the file, before any is removed. -/
def Event.expand (evt : Event) : List Event :=
  if evt.isSyncOpEvent then [evt]
  else if evt.isAccessEvent then (List.range evt.varLen).map evt.expandArrayAccessEvent
  else if evt.isThreadOpEvent then [evt]
  else []

/-- All loads and stores of bytes, synchronisations and thread operations, in order. -/
def expandTrace (file : List Event) : List Event := file.flatMap Event.expand

/-- Two threads access `a`, and one thread stores to it. -/
def SharedIn (evts : List Event) (a : Addr) : Prop :=
  (∃ e ∈ evts, ∃ f ∈ evts, e.isAccessEvent ∧ f.isAccessEvent ∧ e.varAddr = a ∧ f.varAddr = a ∧ e.tid ≠ f.tid) ∧
    ∃ e ∈ evts, e.opTy = .st ∧ e.varAddr = a

/-- A thread synchronises on `a`. -/
def SyncIn (evts : List Event) (a : Addr) : Prop := ∃ e ∈ evts, e.isSyncOpEvent ∧ e.varAddr = a

instance (evts : List Event) (a : Addr) : Decidable (SharedIn evts a) := inferInstanceAs (Decidable (_ ∧ _))

instance (evts : List Event) (a : Addr) : Decidable (SyncIn evts a) :=
  inferInstanceAs (Decidable (∃ e ∈ evts, _))

/-- An event that the loop accepts as the one at position `k` of the file. -/
structure Loadable (k : ℕ) (evt : Event) : Prop where
  timestamp : evt.timestamp = k
  kind : evt.isSyncOpEvent ∨ evt.isAccessEvent ∨ evt.isThreadOpEvent ∨ evt.isFuncCallEvent
  length : evt.isAccessEvent → 0 < evt.varLen

theorem Event.not_access_of_sync {e : Event} (h : e.isSyncOpEvent) : e.isAccessEvent = false := by
  rcases Event.isSyncOpEvent_iff.mp h with h | h | h
  · rcases Event.isSyncAcqEvent_iff.mp h with h | h | h <;> simp [isAccessEvent, h]
  · rcases Event.isSyncRelEvent_iff.mp h with h | h | h <;> simp [isAccessEvent, h]
  · simp [isAccessEvent, h]

theorem Event.not_access_of_threadOp {e : Event} (h : e.isThreadOpEvent) : e.isAccessEvent = false := by
  rcases Event.isThreadOpEvent_iff.mp h with h | h <;> simp [isAccessEvent, h]

/-- The bytes of an access. -/
theorem Event.expand_of_access {e : Event} (h : e.isAccessEvent) :
    e.expand = (List.range e.varLen).map e.expandArrayAccessEvent := by
  have hs : e.isSyncOpEvent = false := by
    cases hs : e.isSyncOpEvent with
    | false => rfl
    | true => exact absurd (Event.not_access_of_sync hs) (by simp [h])
  simp [expand, h, hs]

@[simp] theorem Event.expandArrayAccessEvent_isAccess (e : Event) (l : ℕ) :
    (e.expandArrayAccessEvent l).isAccessEvent = e.isAccessEvent := rfl

@[simp] theorem Event.expandArrayAccessEvent_tid (e : Event) (l : ℕ) :
    (e.expandArrayAccessEvent l).tid = e.tid := rfl

theorem Event.getLength_eq_ok {e : Event} {len : ℕ} :
    e.getLength = .ok len ↔ e.isAccessEvent ∧ 0 < e.varLen ∧ e.varLen = len := by
  unfold getLength
  split_ifs with h
  · simp [h]
  · simp only [false_iff]
    tauto

/-! ### What the loop knows -/

/-- What the loop knows of the events that it has stored. -/
structure LoaderInv (ld : Loader) : Prop where
  written : ∀ a, a ∈ ld.hasWritten ↔ ∃ e ∈ ld.totEvents, e.opTy = .st ∧ e.varAddr = a
  /-- The first accessor. -/
  first : ∀ a t, ld.lastAccessor a = some t → ∃ e ∈ ld.totEvents, e.isAccessEvent ∧ e.varAddr = a ∧ e.tid = t
  fresh : ∀ a, ld.lastAccessor a = none → ∀ e ∈ ld.totEvents, e.isAccessEvent → e.varAddr ≠ a
  shared : ∀ a, a ∈ ld.sharedVars ↔ ∃ e ∈ ld.totEvents, ∃ f ∈ ld.totEvents,
    e.isAccessEvent ∧ f.isAccessEvent ∧ e.varAddr = a ∧ f.varAddr = a ∧ e.tid ≠ f.tid
  sync : ∀ a, a ∈ ld.syncVars ↔ ∃ e ∈ ld.totEvents, e.isSyncOpEvent ∧ e.varAddr = a

theorem LoaderInv.init : LoaderInv .init where
  written := fun a => by simp [Loader.init]
  first := fun a t h => by cases h
  fresh := fun a _ e he => by cases he
  shared := fun a => by simp [Loader.init]
  sync := fun a => by simp [Loader.init]

variable {ld ld' : Loader} {evt : Event}

/-- An event that is no access. -/
theorem LoaderInv.addTotalEvent (h : LoaderInv ld) (hacc : evt.isAccessEvent = false) {syncVars : Finset Addr}
    (hsync : ∀ a, a ∈ syncVars ↔ a ∈ ld.syncVars ∨ evt.isSyncOpEvent ∧ evt.varAddr = a) :
    LoaderInv ({ ld with syncVars := syncVars }.addTotalEvent evt) := by
  have hst : evt.opTy ≠ .st := fun h => by simp [Event.isAccessEvent, h] at hacc
  have hmem : ∀ {e : Event}, e ∈ ld.totEvents ++ [evt] → e.isAccessEvent → e ∈ ld.totEvents := by
    intro e he hacc'
    rcases List.mem_append.mp he with he | he
    · exact he
    · cases List.mem_singleton.mp he
      rw [hacc] at hacc'
      cases hacc'
  refine ⟨fun a => ?_, fun a t ha => ?_, fun a ha e he hacc' => h.fresh a ha e (hmem he hacc') hacc',
    fun a => ?_, fun a => ?_⟩
  · simp only [Loader.addTotalEvent, List.mem_append, List.mem_singleton, or_and_right, exists_or, exists_eq_left]
    rw [h.written a, or_iff_left fun h => hst h.1]
  · obtain ⟨e, he, hrest⟩ := h.first a t ha
    exact ⟨e, List.mem_append_left _ he, hrest⟩
  · rw [show a ∈ (Loader.addTotalEvent { ld with syncVars := syncVars } evt).sharedVars ↔ a ∈ ld.sharedVars from
      Iff.rfl, h.shared a]
    constructor
    · rintro ⟨e, he, f, hf, hrest⟩
      exact ⟨e, List.mem_append_left _ he, f, List.mem_append_left _ hf, hrest⟩
    · rintro ⟨e, he, f, hf, hea, hfa, hrest⟩
      exact ⟨e, hmem he hea, f, hmem hf hfa, hea, hfa, hrest⟩
  · simp only [Loader.addTotalEvent, List.mem_append, List.mem_singleton, or_and_right, exists_or, exists_eq_left]
    rw [hsync a, h.sync a]

/-- What one byte changes. -/
structure AddedByte (ld : Loader) (evt : Event) (ld' : Loader) : Prop where
  totEvents : ld'.totEvents = ld.totEvents ++ [evt]
  syncVars : ld'.syncVars = ld.syncVars
  hasWritten : ∀ a, a ∈ ld'.hasWritten ↔ a ∈ ld.hasWritten ∨ evt.opTy = .st ∧ evt.varAddr = a
  known : evt.varAddr ∈ ld.sharedVars ∧ ld'.sharedVars = ld.sharedVars ∧ ld'.lastAccessor = ld.lastAccessor ∨
    evt.varAddr ∉ ld.sharedVars ∧ (∃ last, ld.lastAccessor evt.varAddr = some last ∧
      ld'.lastAccessor = ld.lastAccessor ∧
        ld'.sharedVars = if last ≠ evt.tid then insert evt.varAddr ld.sharedVars else ld.sharedVars) ∨
    evt.varAddr ∉ ld.sharedVars ∧ ld.lastAccessor evt.varAddr = none ∧ ld'.sharedVars = ld.sharedVars ∧
      ld'.lastAccessor = Function.update ld.lastAccessor evt.varAddr (some evt.tid)

/-- The two assignments in front of the test. -/
def Loader.store (ld : Loader) (evt : Event) : Loader :=
  if evt.opTy = .st then { ld.addTotalEvent evt with hasWritten := insert evt.varAddr ld.hasWritten }
  else ld.addTotalEvent evt

theorem Loader.store_eq (ld : Loader) (evt : Event) : (ld.store evt).totEvents = ld.totEvents ++ [evt] ∧
    (ld.store evt).syncVars = ld.syncVars ∧ (ld.store evt).sharedVars = ld.sharedVars ∧
    (ld.store evt).lastAccessor = ld.lastAccessor ∧
    ∀ a, a ∈ (ld.store evt).hasWritten ↔ a ∈ ld.hasWritten ∨ evt.opTy = .st ∧ evt.varAddr = a := by
  unfold store
  split_ifs with hst
  · refine ⟨rfl, rfl, rfl, rfl, fun a => ?_⟩
    simp only [Finset.mem_insert, hst, true_and, or_comm, eq_comm]
  · refine ⟨rfl, rfl, rfl, rfl, fun a => ?_⟩
    simp [hst, addTotalEvent]

theorem Loader.addByte_eq (ld : Loader) (evt : Event) : ld.addByte evt =
    if evt.varAddr ∈ ld.sharedVars then .ok (ld.store evt)
    else do
      let tid ← evt.getThread
      match ld.lastAccessor evt.varAddr with
      | some last =>
        return if last ≠ tid then { ld.store evt with sharedVars := insert evt.varAddr ld.sharedVars }
          else ld.store evt
      | none => return { ld.store evt with
          lastAccessor := Function.update ld.lastAccessor evt.varAddr (some tid) } := by
  unfold addByte store addTotalEvent
  by_cases hst : evt.opTy = .st
  · simp only [hst, if_true]
  · simp only [hst, if_false]

/-- **A byte** of an access. -/
theorem addedByte_of_ok (h : ld.addByte evt = .ok ld') : AddedByte ld evt ld' := by
  obtain ⟨htot, hsync, hshared, hlast, hwritten⟩ := ld.store_eq evt
  rw [Loader.addByte_eq] at h
  split_ifs at h with hmem
  · cases h
    exact ⟨htot, hsync, hwritten, Or.inl ⟨hmem, hshared, hlast⟩⟩
  obtain ⟨tid, htid, h⟩ := bind_eq_ok.mp h
  obtain rfl : evt.tid = tid := by
    unfold Event.getThread at htid
    split_ifs at htid
    exact Except.ok.inj htid
  split at h
  next last heq =>
    obtain rfl := pure_eq_ok.mp h
    split_ifs with hne
    · exact ⟨htot, hsync, hwritten, Or.inr (Or.inl ⟨hmem, last, heq, hlast, (if_pos hne).symm⟩)⟩
    · exact ⟨htot, hsync, hwritten, Or.inr (Or.inl ⟨hmem, last, heq, hlast, by rw [if_neg hne, hshared]⟩)⟩
  next heq =>
    obtain rfl := pure_eq_ok.mp h
    exact ⟨htot, hsync, hwritten, Or.inr (Or.inr ⟨hmem, heq, hshared, rfl⟩)⟩

theorem AddedByte.mem_totEvents (hb : AddedByte ld evt ld') {e : Event} :
    e ∈ ld'.totEvents ↔ e ∈ ld.totEvents ∨ e = evt := by
  rw [hb.totEvents, List.mem_append, List.mem_singleton]

/-- Two threads have accessed the address. -/
def Loader.Shared (ld : Loader) (a : Addr) : Prop := ∃ e ∈ ld.totEvents, ∃ f ∈ ld.totEvents,
  e.isAccessEvent ∧ f.isAccessEvent ∧ e.varAddr = a ∧ f.varAddr = a ∧ e.tid ≠ f.tid

theorem AddedByte.shared_mono (hb : AddedByte ld evt ld') {a : Addr} (h : ld.Shared a) : ld'.Shared a := by
  obtain ⟨e, he, f, hf, hrest⟩ := h
  exact ⟨e, hb.mem_totEvents.mpr (Or.inl he), f, hb.mem_totEvents.mpr (Or.inl hf), hrest⟩

/-- What a new access adds. -/
theorem AddedByte.shared_cases (hb : AddedByte ld evt ld') {a : Addr} (h : ld'.Shared a) : ld.Shared a ∨
    evt.varAddr = a ∧ ∃ e ∈ ld.totEvents, e.isAccessEvent ∧ e.varAddr = a ∧ e.tid ≠ evt.tid := by
  obtain ⟨e, he, f, hf, hea, hfa, hae, haf, hne⟩ := h
  obtain he | rfl := hb.mem_totEvents.mp he <;> obtain hf | rfl := hb.mem_totEvents.mp hf
  · exact Or.inl ⟨e, he, f, hf, hea, hfa, hae, haf, hne⟩
  · exact Or.inr ⟨haf, e, he, hea, hae, hne⟩
  · exact Or.inr ⟨hae, f, hf, hfa, haf, fun h => hne h.symm⟩
  · exact absurd rfl hne

/-- The accesses to an address that is not shared are those of the first accessor. -/
theorem LoaderInv.tid_eq_of_not_shared (h : LoaderInv ld) {a : Addr} {last : ℕ} (hno : a ∉ ld.sharedVars)
    (hlast : ld.lastAccessor a = some last) {e : Event} (he : e ∈ ld.totEvents) (hea : e.isAccessEvent)
    (ha : e.varAddr = a) : e.tid = last := by
  obtain ⟨f, hf, hfa, hfaddr, rfl⟩ := h.first _ _ hlast
  by_contra hne
  exact hno ((h.shared _).mpr ⟨e, he, f, hf, hea, hfa, ha, hfaddr, hne⟩)

theorem LoaderInv.first_addedByte (h : LoaderInv ld) (hacc : evt.isAccessEvent) (hb : AddedByte ld evt ld')
    {a : Addr} {t : ℕ} (ha : ld'.lastAccessor a = some t) :
    ∃ e ∈ ld'.totEvents, e.isAccessEvent ∧ e.varAddr = a ∧ e.tid = t := by
  have hold : ld.lastAccessor a = some t → ∃ e ∈ ld'.totEvents, e.isAccessEvent ∧ e.varAddr = a ∧ e.tid = t := by
    intro ha
    obtain ⟨e, he, hrest⟩ := h.first a t ha
    exact ⟨e, hb.mem_totEvents.mpr (Or.inl he), hrest⟩
  obtain ⟨-, -, hlast⟩ | ⟨-, last, -, hlast, -⟩ | ⟨-, -, -, hlast⟩ := hb.known
  · exact hold (hlast ▸ ha)
  · exact hold (hlast ▸ ha)
  · rw [hlast] at ha
    by_cases haddr : a = evt.varAddr
    · subst haddr
      rw [Function.update_self] at ha
      exact ⟨evt, hb.mem_totEvents.mpr (Or.inr rfl), hacc, rfl, Option.some.inj ha⟩
    · exact hold (by rwa [Function.update_of_ne haddr] at ha)

theorem LoaderInv.fresh_addedByte (h : LoaderInv ld) (hb : AddedByte ld evt ld') {a : Addr}
    (ha : ld'.lastAccessor a = none) {e : Event} (he : e ∈ ld'.totEvents) (hea : e.isAccessEvent) : e.varAddr ≠ a := by
  have hfresh : ld.lastAccessor a = none ∧ evt.varAddr ≠ a := by
    obtain ⟨hin, -, hlast⟩ | ⟨-, last, heq, hlast, -⟩ | ⟨-, -, -, hlast⟩ := hb.known
    · rw [hlast] at ha
      refine ⟨ha, fun haddr => ?_⟩
      obtain ⟨e, he, -, -, hea, -, hae, -⟩ := (h.shared _).mp hin
      exact h.fresh a ha e he hea (hae.trans haddr)
    · rw [hlast] at ha
      refine ⟨ha, fun haddr => ?_⟩
      rw [haddr, ha] at heq
      cases heq
    · rw [hlast] at ha
      by_cases haddr : a = evt.varAddr
      · rw [haddr, Function.update_self] at ha
        cases ha
      · exact ⟨by rwa [Function.update_of_ne haddr] at ha, fun h => haddr h.symm⟩
  obtain he | rfl := hb.mem_totEvents.mp he
  · exact h.fresh a hfresh.1 e he hea
  · exact hfresh.2

theorem LoaderInv.shared_addedByte (h : LoaderInv ld) (hacc : evt.isAccessEvent) (hb : AddedByte ld evt ld')
    (a : Addr) : a ∈ ld'.sharedVars ↔ ld'.Shared a := by
  have hold : a ∈ ld.sharedVars → ld'.Shared a := fun ha => hb.shared_mono ((h.shared a).mp ha)
  have hnew : ld'.Shared a → a ∈ ld.sharedVars ∨
      evt.varAddr = a ∧ ∃ e ∈ ld.totEvents, e.isAccessEvent ∧ e.varAddr = a ∧ e.tid ≠ evt.tid :=
    fun hex => (hb.shared_cases hex).imp_left (h.shared a).mpr
  obtain ⟨hin, hshared, -⟩ | ⟨hno, last, heq, -, hshared⟩ | ⟨hno, heq, hshared, -⟩ := hb.known
  · rw [hshared]
    refine ⟨hold, fun hex => ?_⟩
    obtain hmem | ⟨rfl, -⟩ := hnew hex
    · exact hmem
    · exact hin
  · rw [hshared]
    obtain ⟨f, hf, hfa, hfaddr, hftid⟩ := h.first _ _ heq
    split_ifs with hne
    · rw [Finset.mem_insert]
      refine ⟨?_, fun hex => (hnew hex).symm.imp (fun h => h.1.symm) id⟩
      rintro (rfl | ha)
      · exact ⟨f, hb.mem_totEvents.mpr (Or.inl hf), evt, hb.mem_totEvents.mpr (Or.inr rfl), hfa, hacc, hfaddr, rfl,
          hftid ▸ hne⟩
      · exact hold ha
    · refine ⟨hold, fun hex => ?_⟩
      obtain hmem | ⟨rfl, e, he, hea, hae, hne'⟩ := hnew hex
      · exact hmem
      · exact absurd ((h.tid_eq_of_not_shared hno heq he hea hae).trans (not_not.mp hne)) hne'
  · rw [hshared]
    refine ⟨hold, fun hex => ?_⟩
    obtain hmem | ⟨rfl, e, he, hea, hae, -⟩ := hnew hex
    · exact hmem
    · exact absurd hae (h.fresh _ heq e he hea)

/-- An access keeps what the loop knows. -/
theorem LoaderInv.addedByte (h : LoaderInv ld) (hacc : evt.isAccessEvent) (hb : AddedByte ld evt ld') :
    LoaderInv ld' := by
  refine ⟨fun a => ?_, fun a t ha => h.first_addedByte hacc hb ha, fun a ha e he hea => h.fresh_addedByte hb ha he hea,
    h.shared_addedByte hacc hb, fun a => ?_⟩
  · rw [hb.hasWritten, h.written]
    constructor
    · rintro (⟨e, he, hrest⟩ | hrest)
      · exact ⟨e, hb.mem_totEvents.mpr (Or.inl he), hrest⟩
      · exact ⟨evt, hb.mem_totEvents.mpr (Or.inr rfl), hrest⟩
    · rintro ⟨e, he, hrest⟩
      obtain he | rfl := hb.mem_totEvents.mp he
      · exact Or.inl ⟨e, he, hrest⟩
      · exact Or.inr hrest
  · rw [hb.syncVars, h.sync]
    constructor
    · rintro ⟨e, he, hrest⟩
      exact ⟨e, hb.mem_totEvents.mpr (Or.inl he), hrest⟩
    · rintro ⟨e, he, hs, ha⟩
      obtain he | rfl := hb.mem_totEvents.mp he
      · exact ⟨e, he, hs, ha⟩
      · exact absurd (Event.not_access_of_sync hs) (by simp [hacc])

/-! ### The loops -/

/-- The bytes of an access. -/
theorem addBytes_of_ok {evts : List Event} (hacc : ∀ e ∈ evts, e.isAccessEvent) (h : ld.addBytes evts = .ok ld') :
    ld'.totEvents = ld.totEvents ++ evts ∧ (LoaderInv ld → LoaderInv ld') := by
  induction evts generalizing ld with
  | nil =>
    cases h
    exact ⟨(List.append_nil _).symm, id⟩
  | cons e evts ih =>
    obtain ⟨ld₁, h₁, h⟩ := bind_eq_ok.mp h
    have hb := addedByte_of_ok h₁
    obtain ⟨htot, hinv⟩ := ih (fun f hf => hacc f (List.mem_cons_of_mem _ hf)) h
    refine ⟨?_, fun h => hinv (h.addedByte (hacc e List.mem_cons_self) hb)⟩
    rw [htot, hb.totEvents, List.append_assoc]
    rfl

/-- No `assert` stops the loop over the bytes of an access of a thread. -/
theorem addBytes_ok {evts : List Event} (htid : ∀ e ∈ evts, e.tid < UNDEFINED_TID) :
    ∃ ld', ld.addBytes evts = .ok ld' := by
  induction evts generalizing ld with
  | nil => exact ⟨ld, rfl⟩
  | cons e evts ih =>
    obtain ⟨ld₁, h₁⟩ : ∃ ld₁, ld.addByte e = .ok ld₁ := by
      rw [Loader.addByte_eq]
      have hget : e.getThread = .ok e.tid := if_pos (htid e List.mem_cons_self)
      split_ifs
      · exact ⟨_, rfl⟩
      · rw [hget]
        cases ld.lastAccessor e.varAddr with
        | some last => exact ⟨_, rfl⟩
        | none => exact ⟨_, rfl⟩
    obtain ⟨ld₂, h₂⟩ := @ih ld₁ fun f hf => htid f (List.mem_cons_of_mem _ hf)
    exact ⟨ld₂, bind_eq_ok.mpr ⟨ld₁, h₁, h₂⟩⟩

/-- **One event** of the file. -/
theorem LoaderInv.addEvent (h : ld.addEvent evt = .ok ld') :
    ld'.totEvents = ld.totEvents ++ evt.expand ∧ (LoaderInv ld → LoaderInv ld') := by
  unfold Loader.addEvent at h
  split_ifs at h with hs ha ht hc
  · cases h
    refine ⟨by simp [Loader.addTotalEvent, Event.expand, hs], fun hinv => ?_⟩
    apply hinv.addTotalEvent (Event.not_access_of_sync hs)
    intro a
    simp only [Finset.mem_insert, hs, true_and, or_comm, eq_comm]
  · obtain ⟨len, hlen, h⟩ := bind_eq_ok.mp h
    obtain ⟨-, -, rfl⟩ := Event.getLength_eq_ok.mp hlen
    obtain ⟨htot, hinv⟩ := addBytes_of_ok (fun e he => by
      obtain ⟨l, -, rfl⟩ := List.mem_map.mp he
      exact ha) h
    exact ⟨by rw [htot, Event.expand_of_access ha], hinv⟩
  · cases h
    refine ⟨by simp [Loader.addTotalEvent, Event.expand, hs, ha, ht], fun hinv => ?_⟩
    exact @LoaderInv.addTotalEvent ld evt hinv (Bool.eq_false_of_not_eq_true ha) ld.syncVars fun a => by simp [hs]
  · cases h
    exact ⟨by simp [Event.expand, hs, ha, ht], id⟩

/-- What the branches of the loop ask of an event. -/
theorem kind_of_addEvent (h : ld.addEvent evt = .ok ld') :
    (evt.isSyncOpEvent ∨ evt.isAccessEvent ∨ evt.isThreadOpEvent ∨ evt.isFuncCallEvent) ∧
      (evt.isAccessEvent → 0 < evt.varLen) := by
  unfold Loader.addEvent at h
  split_ifs at h with hs ha ht hc
  · simp [hs, Event.not_access_of_sync hs]
  · obtain ⟨len, hlen, -⟩ := bind_eq_ok.mp h
    exact ⟨Or.inr (Or.inl ha), fun _ => (Event.getLength_eq_ok.mp hlen).2.1⟩
  · simp [ha, ht]
  · simp [ha, hc]

/-- An event that one of the loop's branches takes. -/
theorem addEvent_ok_iff (htid : evt.tid < UNDEFINED_TID) : (∃ ld', ld.addEvent evt = .ok ld') ↔
    (evt.isSyncOpEvent ∨ evt.isAccessEvent ∨ evt.isThreadOpEvent ∨ evt.isFuncCallEvent) ∧
      (evt.isAccessEvent → 0 < evt.varLen) := by
  refine ⟨fun ⟨ld', h⟩ => kind_of_addEvent h, ?_⟩
  rintro ⟨hkind, hlen⟩
  unfold Loader.addEvent
  split_ifs with hs ha ht hc
  · exact ⟨_, rfl⟩
  · obtain ⟨ld', h⟩ := @addBytes_ok ld ((List.range evt.varLen).map evt.expandArrayAccessEvent)
      fun e he => by
        obtain ⟨l, -, rfl⟩ := List.mem_map.mp he
        exact htid
    exact ⟨ld', bind_eq_ok.mpr ⟨evt.varLen, Event.getLength_eq_ok.mpr ⟨ha, hlen ha, rfl⟩, h⟩⟩
  · exact ⟨_, rfl⟩
  · exact ⟨_, rfl⟩
  · simp [hs, ha, ht, hc] at hkind

/-- **The loop** stores the expanded events. -/
theorem loop_of_ok {file : List Event} {k : ℕ} (h : Loader.loop file k ld = .ok ld') :
    ld'.totEvents = ld.totEvents ++ expandTrace file ∧ (LoaderInv ld → LoaderInv ld') := by
  induction file generalizing k ld with
  | nil =>
    cases h
    exact ⟨(List.append_nil _).symm, id⟩
  | cons e file ih =>
    simp only [Loader.loop] at h
    split_ifs at h
    obtain ⟨ld₁, h₁, h⟩ := bind_eq_ok.mp h
    obtain ⟨htot₁, hinv₁⟩ := LoaderInv.addEvent h₁
    obtain ⟨htot, hinv⟩ := ih h
    refine ⟨?_, fun h => hinv (hinv₁ h)⟩
    rw [htot, htot₁, List.append_assoc]
    rfl

/-- The events of a file whose end the loop reaches. -/
theorem loadable_of_loop {file : List Event} {k i : ℕ} {e : Event} (h : Loader.loop file k ld = .ok ld')
    (he : file[i]? = some e) : Loadable (k + i) e := by
  induction file generalizing k ld i with
  | nil => cases he
  | cons f file ih =>
    simp only [Loader.loop] at h
    split_ifs at h with hts
    obtain ⟨ld₁, h₁, h⟩ := bind_eq_ok.mp h
    cases i with
    | zero =>
      cases he
      obtain ⟨hkind, hlen⟩ := kind_of_addEvent h₁
      exact ⟨(not_not.mp hts).symm, hkind, hlen⟩
    | succ i =>
      have hload := ih h (by simpa using he)
      rwa [Nat.add_right_comm] at hload

/-- The loop reaches the end of a file exactly when it can take every event. -/
theorem loop_ok_iff {file : List Event} (htid : ∀ e ∈ file, e.tid < UNDEFINED_TID) {k : ℕ} :
    (∃ ld', Loader.loop file k ld = .ok ld') ↔ ∀ i e, file[i]? = some e → Loadable (k + i) e := by
  refine ⟨fun ⟨ld', h⟩ i e he => loadable_of_loop h he, fun hall => ?_⟩
  induction file generalizing k ld with
  | nil => exact ⟨ld, rfl⟩
  | cons e file ih =>
    have htid' : ∀ f ∈ file, f.tid < UNDEFINED_TID := fun f hf => htid f (List.mem_cons_of_mem _ hf)
    obtain ⟨hts, hkind, hlen⟩ := hall 0 e rfl
    obtain ⟨ld₁, h₁⟩ := (@addEvent_ok_iff ld e (htid e List.mem_cons_self)).mpr ⟨hkind, hlen⟩
    obtain ⟨ld', h⟩ := @ih ld₁ htid' (k + 1) fun i f hf => by
      have := hall (i + 1) f (by simpa using hf)
      rwa [← Nat.add_assoc, Nat.add_right_comm] at this
    refine ⟨ld', ?_⟩
    simp only [Loader.loop]
    rw [if_neg (not_not.mpr (show k = e.timestamp from hts.symm))]
    exact bind_eq_ok.mpr ⟨ld₁, h₁, h⟩

/-! ### The graph -/

section Graph

variable {file : List Event} {g : DepGraph}

/-- **The graph**: the expanded events without the accesses to addresses that are not shared. -/
theorem loadTrace_eq_ok (h : loadTrace file = .ok g) :
    g.totEvents = (expandTrace file).filter (Loader.keeps g.sharedVars) ∧
      (∀ a, a ∈ g.sharedVars ↔ SharedIn (expandTrace file) a) ∧
      ∀ a, a ∈ g.syncVars ↔ SyncIn (expandTrace file) a := by
  obtain ⟨ld, hloop, hg⟩ := bind_eq_ok.mp h
  obtain rfl := pure_eq_ok.mp hg
  obtain ⟨htot, hinv⟩ := loop_of_ok hloop
  replace hinv := hinv .init
  replace htot : ld.totEvents = expandTrace file := htot
  refine ⟨by rw [← htot]; rfl, fun a => ?_, fun a => ?_⟩
  · simp only [Loader.finish, Finset.mem_filter]
    rw [hinv.shared, hinv.written, htot]
    rfl
  · simp only [Loader.finish]
    rw [hinv.sync, htot]
    rfl

/-- The events of a file that is loaded. -/
theorem loadable_of_loaded (h : loadTrace file = .ok g) {i : ℕ} {e : Event} (he : file[i]? = some e) :
    Loadable i e := by
  obtain ⟨ld, hld, -⟩ := bind_eq_ok.mp h
  have hload := loadable_of_loop hld he
  rwa [Nat.zero_add] at hload

/-- **Which files are loaded**: those whose events are all of a kind, and at their place. -/
theorem loadTrace_ok_iff (htid : ∀ e ∈ file, e.tid < UNDEFINED_TID) :
    (∃ g, loadTrace file = .ok g) ↔ ∀ i e, file[i]? = some e → Loadable i e := by
  have hloop := @loop_ok_iff .init file htid 0
  simp only [Nat.zero_add] at hloop
  rw [← hloop]
  constructor
  · rintro ⟨g, h⟩
    obtain ⟨ld, hld, -⟩ := bind_eq_ok.mp h
    exact ⟨ld, hld⟩
  · rintro ⟨ld, hld⟩
    exact ⟨ld.finish, bind_eq_ok.mpr ⟨ld, hld, rfl⟩⟩

instance (k : ℕ) (evt : Event) : Decidable (Loadable k evt) :=
  decidable_of_iff (evt.timestamp = k ∧
    (evt.isSyncOpEvent ∨ evt.isAccessEvent ∨ evt.isThreadOpEvent ∨ evt.isFuncCallEvent) ∧
      (evt.isAccessEvent → 0 < evt.varLen))
    ⟨fun h => ⟨h.1, h.2.1, h.2.2⟩, fun h => ⟨h.timestamp, h.kind, h.length⟩⟩

/-- A file that is loaded, by a test of each event. -/
theorem exists_loadTrace (h : ∀ p ∈ file.zipIdx, Loadable p.2 p.1 ∧ p.1.tid < UNDEFINED_TID) :
    ∃ g, loadTrace file = .ok g := by
  have hmem : ∀ i e, file[i]? = some e → (e, i) ∈ file.zipIdx := fun i e he =>
    List.mem_zipIdx_iff_getElem?.mpr he
  refine (loadTrace_ok_iff fun e he => ?_).mpr fun i e he => (h _ (hmem i e he)).1
  obtain ⟨i, hi⟩ := List.mem_iff_getElem?.mp he
  exact (h _ (hmem i e hi)).2

/-- Every access in the graph is of one byte, to a shared address. -/
theorem mem_expandTrace {e : Event} (he : e ∈ expandTrace file) :
    e.isSyncOpEvent ∧ e ∈ file ∨ e.isThreadOpEvent ∧ e ∈ file ∨
      e.isAccessEvent ∧ e.varLen = 1 ∧ ∃ f ∈ file, ∃ l < f.varLen, f.isAccessEvent ∧ e = f.expandArrayAccessEvent l := by
  obtain ⟨f, hf, he⟩ := List.mem_flatMap.mp he
  unfold Event.expand at he
  split_ifs at he with hs ha ht
  · cases List.mem_singleton.mp he
    exact Or.inl ⟨hs, hf⟩
  · obtain ⟨l, hl, rfl⟩ := List.mem_map.mp he
    exact Or.inr (Or.inr ⟨ha, rfl, f, hf, l, List.mem_range.mp hl, ha, rfl⟩)
  · cases List.mem_singleton.mp he
    exact Or.inr (Or.inl ⟨ht, hf⟩)
  · cases he

theorem keeps_of_not_access {shared : Finset Addr} {e : Event} (h : e.isAccessEvent = false) :
    Loader.keeps shared e = true := by
  unfold Event.isAccessEvent at h
  simp [Loader.keeps, h]

theorem keeps_of_access {shared : Finset Addr} {e : Event} (h : e.isAccessEvent) :
    Loader.keeps shared e = true ↔ e.varAddr ∈ shared := by
  unfold Event.isAccessEvent at h
  simp only [Loader.keeps, h, Bool.true_and, Bool.not_not, decide_eq_true_eq]

end Graph

end Schnauzer
