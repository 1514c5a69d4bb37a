import Schnauzer.Core.Logger
import Schnauzer.Lib.CausalHistory

/-!
# What really synchronises

The history of a run has a label for everything that synchronises: a thread is created or
joined, a mutex is acquired or released, a condition variable is signalled, a thread awakes, a reader-writer
lock is taken or given back; and one for each reservation of slots in the log, which says where in the
history a thread logs. A label takes over knowledge from what the thread synchronises
with (`Act.takes`) and passes knowledge on (`Act.gives`), so that the labels are the events of
a causal order: program order, creation and join, release and acquisition, signal and
awakening, and the release and the conflicting acquisition of a reader-writer lock.

An access stands where its thread logs it, which is right in front of it: no synchronisation of
the thread lies in between.
-/

namespace Schnauzer.Interface

open CausalOrder

/-- What happens. -/
inductive Act where
  /-- The thread reserves slots of the log for a call, the first of them `slot`. -/
  | log (call : LogCall) (slot : ℕ)
  /-- Thread `c` is created. -/
  | spawn (c : ℕ)
  /-- Thread `c`, which has ended, is joined. -/
  | joined (c : ℕ)
  /-- A mutex is acquired. -/
  | acquire (m : Addr)
  /-- A mutex is released. -/
  | release (m : Addr)
  /-- A condition variable is signalled, to one thread or to all; `ticket` is the place of the label. -/
  | signal (c : Addr) (ticket : ℕ)
  /-- A wait on `c` returns, with the mutex `m`; `cause` is the ticket of the signal that woke it. -/
  | awake (c m : Addr) (cause : Option ℕ)
  /-- A reader-writer lock is taken by a reader, or by a writer. -/
  | rdlock (l : Addr) | wrlock (l : Addr)
  /-- It is given back by a reader, or by a writer. -/
  | rdunlock (l : Addr) | wrunlock (l : Addr)
  deriving DecidableEq

/-- A label of the history. -/
structure Label where
  /-- The thread. -/
  thr : ℕ
  /-- What it does. -/
  act : Act
  deriving DecidableEq

/-- What carries knowledge. -/
inductive RealNode where
  | thr (t : ℕ)
  | mutex (m : Addr)
  /-- A signal, for the threads that it wakes. -/
  | wake (ticket : ℕ)
  /-- A reader-writer lock, for all that take it. -/
  | written (l : Addr)
  /-- A reader-writer lock, for writers. -/
  | read (l : Addr)
  deriving DecidableEq

/-- Whose knowledge a thread takes over. -/
def Act.takes : Act → List RealNode
  | .joined c => [.thr c]
  | .acquire m => [.mutex m]
  | .awake _ m none => [.mutex m]
  | .awake _ m (some ticket) => [.mutex m, .wake ticket]
  | .rdlock l => [.written l]
  | .wrlock l => [.written l, .read l]
  | _ => []

/-- To whom a thread passes its knowledge. -/
def Act.gives : Act → List RealNode
  | .spawn c => [.thr c]
  | .release m => [.mutex m]
  | .signal _ ticket => [.wake ticket]
  | .rdunlock l => [.read l]
  | .wrunlock l => [.written l]
  | _ => []

namespace Label

/-- The nodes that a label reads. -/
def reads (l : Label) : Set RealNode := {x | x = .thr l.thr ∨ x ∈ l.act.takes}

/-- The nodes that a label writes. -/
def writes (l : Label) : Set RealNode := {x | x = .thr l.thr ∨ x ∈ l.act.gives}

instance (l : Label) (x : RealNode) : Decidable (x ∈ l.reads) :=
  inferInstanceAs (Decidable (x = .thr l.thr ∨ x ∈ l.act.takes))

instance (l : Label) (x : RealNode) : Decidable (x ∈ l.writes) :=
  inferInstanceAs (Decidable (x = .thr l.thr ∨ x ∈ l.act.gives))

theorem thr_mem_reads (l : Label) : .thr l.thr ∈ l.reads := Or.inl rfl

theorem thr_mem_writes (l : Label) : .thr l.thr ∈ l.writes := Or.inl rfl

end Label

/-- **The real order** of the places of a history. -/
def RealBefore (hist : List Label) : ℕ → ℕ → Prop := BeforeIn Label.reads Label.writes hist

/-- One link of the real order. -/
theorem realBefore_single {hist : List Label} {i j : ℕ} {l l' : Label} (x : RealNode) (hij : i < j)
    (hi : hist[i]? = some l) (hj : hist[j]? = some l') (hx : x ∈ l.writes) (hx' : x ∈ l'.reads) :
    RealBefore hist i j :=
  .single ⟨hij, x, ⟨l, hi, hx⟩, l', hj, hx'⟩

/-- What a node knows at the end of a history. -/
def KnownTo (hist : List Label) (x : RealNode) : Set ℕ := Knows Label.reads Label.writes hist x

/-! ### Without the reader-writer locks -/

/-- The nodes of reader-writer locks. -/
def RealNode.isRwlock : RealNode → Bool
  | .written _ | .read _ => true
  | _ => false

/-- The nodes that a label reads, other than a reader-writer lock. -/
def Label.syncReads (l : Label) : Set RealNode := {x | x ∈ l.reads ∧ x.isRwlock = false}

theorem Label.thr_mem_syncReads (l : Label) : .thr l.thr ∈ l.syncReads := ⟨l.thr_mem_reads, rfl⟩

/-- The order by all that synchronises other than reader-writer locks. -/
def SyncBefore (hist : List Label) : ℕ → ℕ → Prop := BeforeIn Label.syncReads Label.writes hist

/-- One link of this order. -/
theorem syncBefore_single {hist : List Label} {i j : ℕ} {l l' : Label} (x : RealNode) (hij : i < j)
    (hi : hist[i]? = some l) (hj : hist[j]? = some l') (hx : x ∈ l.writes) (hx' : x ∈ l'.reads)
    (hrw : x.isRwlock = false) : SyncBefore hist i j :=
  .single ⟨hij, x, ⟨l, hi, hx⟩, l', hj, hx', hrw⟩

/-- A thread from which no other one learns anything. -/
theorem thr_of_syncBefore {hist : List Label} {t i j : ℕ} (hi : ∀ l, hist[i]? = some l → l.thr = t)
    (hstay : ∀ k l m l', i ≤ k → k < m → hist[k]? = some l → hist[m]? = some l' → l.thr = t →
      (∃ x ∈ l.writes, x ∈ l'.syncReads) → l'.thr = t) (h : SyncBefore hist i j) : ∀ l, hist[j]? = some l → l.thr = t := by
  induction h with
  | single hd =>
    obtain ⟨hlt, x, ⟨l, hl, hx⟩, l', hl', hx'⟩ := hd
    intro l'' hl''
    cases hl'.symm.trans hl''
    exact hstay _ l _ l' le_rfl hlt hl hl' (hi l hl) ⟨x, hx, hx'⟩
  | tail hb hd ih =>
    obtain ⟨hlt, x, ⟨l, hl, hx⟩, l', hl', hx'⟩ := hd
    intro l'' hl''
    cases hl'.symm.trans hl''
    exact hstay _ l _ l' (Before.lt hb).le hlt hl hl' (ih l hl) ⟨x, hx, hx'⟩

/-- What a node knows by it. -/
def SyncKnownTo (hist : List Label) (x : RealNode) : Set ℕ := Knows Label.syncReads Label.writes hist x

end Schnauzer.Interface
