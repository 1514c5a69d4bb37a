import Schnauzer.Common.Event
import Schnauzer.Lib.CausalOrder

/-!
# Happens-before

The order that a trace gives to its events. A thread passes what it knows to itself, a
`CREATE` to the thread created, a release (`UNLOCK`, `SIGNAL`, `BROADCAST`) to the
mutex or condition variable; a `JOIN` takes over what the thread joined knows, an acquire
(`LOCK`, `TRYLOCK`, `AWAKE`) what the variable knows. This is a causal order in the sense of
`CausalOrder`, with a node for each thread and each variable.

## What is proved

* `happensBefore_iff` — the order is the transitive closure of five kinds of edges: the four of
  `Event.Precedes`, and from the `CREATE` of a thread to its `JOIN`. The last matters only for a thread
  that logs nothing in between.
-/

namespace Schnauzer

open CausalOrder Relation

/-- What carries knowledge from one event to another. -/
inductive Node where
  /-- A thread. -/
  | thr (tid : ℕ)
  /-- A mutex or a condition variable. -/
  | var (addr : Addr)
  deriving DecidableEq

namespace Event

/-- The nodes whose knowledge an event takes over. -/
def reads (e : Event) : Set Node :=
  {x | x = .thr e.tid ∨ e.opTy = .join ∧ x = .thr e.remoteTid ∨ e.isSyncAcqEvent ∧ x = .var e.varAddr}

/-- The nodes an event passes its knowledge to. -/
def writes (e : Event) : Set Node :=
  {x | x = .thr e.tid ∨ e.opTy = .create ∧ x = .thr e.remoteTid ∨ e.isSyncRelEvent ∧ x = .var e.varAddr}

/-- What orders an event and a later one. -/
inductive Precedes (e f : Event) : Prop where
  /-- Two events of one thread. -/
  | programOrder (h : e.tid = f.tid)
  /-- `CREATE(c)` and an event of thread `c`. -/
  | create (hc : e.opTy = .create) (h : e.remoteTid = f.tid)
  /-- An event of thread `c` and `JOIN(c)`. -/
  | join (hj : f.opTy = .join) (h : e.tid = f.remoteTid)
  /-- A release and an acquire on one address. -/
  | sync (hr : e.isSyncRelEvent) (ha : f.isSyncAcqEvent) (h : e.varAddr = f.varAddr)

theorem precedes_iff {e f : Event} :
    e.Precedes f ↔ e.tid = f.tid ∨ e.opTy = .create ∧ e.remoteTid = f.tid ∨
      f.opTy = .join ∧ e.tid = f.remoteTid ∨
        e.isSyncRelEvent ∧ f.isSyncAcqEvent ∧ e.varAddr = f.varAddr := by
  constructor
  · rintro (h | ⟨hc, h⟩ | ⟨hj, h⟩ | ⟨hr, ha, h⟩)
    · exact Or.inl h
    · exact Or.inr (Or.inl ⟨hc, h⟩)
    · exact Or.inr (Or.inr (Or.inl ⟨hj, h⟩))
    · exact Or.inr (Or.inr (Or.inr ⟨hr, ha, h⟩))
  · rintro (h | ⟨hc, h⟩ | ⟨hj, h⟩ | ⟨hr, ha, h⟩)
    · exact .programOrder h
    · exact .create hc h
    · exact .join hj h
    · exact .sync hr ha h

instance (e f : Event) : Decidable (e.Precedes f) := decidable_of_iff' _ precedes_iff

end Event

section Trace

variable (evts : List Event)

/-- The nodes that the event at place `i` reads. -/
def readsAt (i : ℕ) : Set Node := {x | ∃ e, evts[i]? = some e ∧ x ∈ e.reads}

/-- The nodes that the event at place `i` writes. -/
def writesAt (i : ℕ) : Set Node := {x | ∃ e, evts[i]? = some e ∧ x ∈ e.writes}

/-- Event `i` happens before event `j`. -/
def HappensBefore : ℕ → ℕ → Prop := Before (readsAt evts) (writesAt evts)

/-- The edges between an event and a later one, with no thread's lifetime in between. -/
def Edge (i j : ℕ) : Prop :=
  i < j ∧ ∃ e f, evts[i]? = some e ∧ evts[j]? = some f ∧ e.Precedes f

/-- `CREATE(c)` and a later `JOIN(c)`: the lifetime of thread `c` lies in between. -/
def CreateJoin (i j : ℕ) : Prop :=
  i < j ∧ ∃ e f, evts[i]? = some e ∧ evts[j]? = some f ∧
    e.opTy = .create ∧ f.opTy = .join ∧ e.remoteTid = f.remoteTid

variable {evts}

theorem Event.mem_reads_self (e : Event) : .thr e.tid ∈ e.reads := Or.inl rfl

theorem Event.mem_writes_self (e : Event) : .thr e.tid ∈ e.writes := Or.inl rfl

@[simp] theorem Event.thr_mem_reads {e : Event} {t : ℕ} :
    .thr t ∈ e.reads ↔ t = e.tid ∨ e.opTy = .join ∧ t = e.remoteTid := by
  simp [reads]

@[simp] theorem Event.var_mem_reads {e : Event} {a : Addr} :
    .var a ∈ e.reads ↔ e.isSyncAcqEvent ∧ a = e.varAddr := by
  simp [reads]

@[simp] theorem Event.thr_mem_writes {e : Event} {t : ℕ} :
    .thr t ∈ e.writes ↔ t = e.tid ∨ e.opTy = .create ∧ t = e.remoteTid := by
  simp [writes]

@[simp] theorem Event.var_mem_writes {e : Event} {a : Addr} :
    .var a ∈ e.writes ↔ e.isSyncRelEvent ∧ a = e.varAddr := by
  simp [writes]

theorem readsAt_eq {i : ℕ} {e : Event} (he : evts[i]? = some e) : readsAt evts i = e.reads := by
  ext x
  simp [readsAt, he]

theorem writesAt_eq {i : ℕ} {e : Event} (he : evts[i]? = some e) : writesAt evts i = e.writes := by
  ext x
  simp [writesAt, he]

/-- Direct precedence is an edge, or leads from the `CREATE` of a thread to its `JOIN`. -/
theorem direct_iff {i j : ℕ} :
    Direct (readsAt evts) (writesAt evts) i j ↔ Edge evts i j ∨ CreateJoin evts i j := by
  constructor
  · rintro ⟨hij, x, ⟨e, he, hx⟩, f, hf, hx'⟩
    cases x with
    | thr t =>
      rw [Event.thr_mem_writes] at hx
      rw [Event.thr_mem_reads] at hx'
      rcases hx with h | ⟨hc, h⟩ <;> rcases hx' with h' | ⟨hj, h'⟩
      · exact Or.inl ⟨hij, e, f, he, hf, .programOrder (h.symm.trans h')⟩
      · exact Or.inl ⟨hij, e, f, he, hf, .join hj (h.symm.trans h')⟩
      · exact Or.inl ⟨hij, e, f, he, hf, .create hc (h.symm.trans h')⟩
      · exact Or.inr ⟨hij, e, f, he, hf, hc, hj, h.symm.trans h'⟩
    | var a =>
      rw [Event.var_mem_writes] at hx
      rw [Event.var_mem_reads] at hx'
      exact Or.inl ⟨hij, e, f, he, hf, .sync hx.1 hx'.1 (hx.2.symm.trans hx'.2)⟩
  · rintro (⟨hij, e, f, he, hf, h⟩ | ⟨hij, e, f, he, hf, hc, hj, h⟩)
    · cases h with
      | programOrder h =>
        exact ⟨hij, _, ⟨e, he, e.mem_writes_self⟩, f, hf, Event.thr_mem_reads.mpr (Or.inl h)⟩
      | create hc h =>
        exact ⟨hij, _, ⟨e, he, Event.thr_mem_writes.mpr (Or.inr ⟨hc, h.symm⟩)⟩, f, hf,
          f.mem_reads_self⟩
      | join hj h =>
        exact ⟨hij, _, ⟨e, he, e.mem_writes_self⟩, f, hf, Event.thr_mem_reads.mpr (Or.inr ⟨hj, h⟩)⟩
      | sync hr ha h =>
        exact ⟨hij, _, ⟨e, he, Event.var_mem_writes.mpr ⟨hr, rfl⟩⟩, f, hf,
          Event.var_mem_reads.mpr ⟨ha, h⟩⟩
    · exact ⟨hij, _, ⟨e, he, Event.thr_mem_writes.mpr (Or.inr ⟨hc, rfl⟩)⟩, f, hf,
        Event.thr_mem_reads.mpr (Or.inr ⟨hj, h⟩)⟩

/-- **Happens-before is the closure of the edges**, those of `Edge` and those from the
`CREATE` of a thread to its `JOIN`. -/
theorem happensBefore_iff {i j : ℕ} :
    HappensBefore evts i j ↔ TransGen (fun i j => Edge evts i j ∨ CreateJoin evts i j) i j := by
  have h : Direct (readsAt evts) (writesAt evts) = fun i j => Edge evts i j ∨ CreateJoin evts i j := by
    funext i j
    exact propext direct_iff
  unfold HappensBefore Before
  rw [h]

/-- Two events of one thread are ordered. -/
theorem happensBefore_of_tid_eq {i j : ℕ} {e f : Event} (hij : i < j) (he : evts[i]? = some e)
    (hf : evts[j]? = some f) (h : e.tid = f.tid) : HappensBefore evts i j :=
  .single (direct_iff.mpr (Or.inl ⟨hij, e, f, he, hf, .programOrder h⟩))

end Trace

end Schnauzer
