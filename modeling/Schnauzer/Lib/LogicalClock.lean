import Schnauzer.Lib.CausalOrder
import Mathlib.Order.Lattice
import Mathlib.Order.MinMax
import Mathlib.Data.Nat.Basic
import Mathlib.Data.Set.Insert

/-!
# Logical clocks

Vector clocks for a causal order. Every event has an owner, its thread; the owner's
own node `home t` is read and written by every event of the owner. Each node keeps a
clock, a tick for every thread. When event `k` takes place its stamp `V k` is the
least upper bound of the clocks of the nodes it reads, and the nodes it writes are
raised to it. In between, a thread may advance its own tick on its own node.

The discipline that makes the clocks say what the order says is freshness: once an
event is over, the tick a thread keeps of itself is larger than what any other node
holds of it. `Represents` is that invariant; `Represents.bump` and `Represents.step`
say that it survives an advance of a thread's own tick and an event.

## What is proved

* `Represents.before_iff` — the stamp of `i` is below the stamp of a later event `j`
  exactly when `i` precedes `j`.
* `Represents.not_le` — and the stamp of a later event of another thread is never
  below the stamp of an earlier one.
-/

namespace LogicalClock

open CausalOrder

universe u v

variable {Node : Type u} {T : Type v}

/-- The clocks `C` of the nodes, after the first `k` events with stamps `V`, say what the
nodes know. -/
structure Represents (reads writes : ℕ → Set Node) (owner : ℕ → T) (home : T → Node)
    (V : ℕ → T → ℕ) (k : ℕ) (C : Node → T → ℕ) : Prop where
  /-- Every event writes its owner's node. -/
  writes_home : ∀ i < k, home (owner i) ∈ writes i
  /-- The owner's tick of an event is not zero. -/
  pos : ∀ i < k, 0 < V i (owner i)
  /-- A node that holds an event's own tick knows the event. -/
  known : ∀ i < k, ∀ x, V i (owner i) ≤ C x (owner i) → i ∈ Known reads writes k x
  /-- A node that knows an event holds all of the event's stamp. -/
  stamp : ∀ i < k, ∀ x, i ∈ Known reads writes k x → ∀ c, V i c ≤ C x c
  /-- Freshness: the tick a thread keeps of itself is ahead of every other node's. -/
  fresh : ∀ c x, x ≠ home c → C x c < C (home c) c ∨ C x c = 0
  /-- What a stamp holds of another thread is behind that thread's own tick. -/
  behind : ∀ i < k, ∀ c, c ≠ owner i → V i c < C (home c) c ∨ V i c = 0

variable {reads writes : ℕ → Set Node} {owner : ℕ → T} {home : T → Node} {V : ℕ → T → ℕ} {k : ℕ}
  {C C' : Node → T → ℕ}

/-- Every thread's tick of itself is ahead of what any other node holds of it. -/
def Fresh (home : T → Node) (C : Node → T → ℕ) : Prop :=
  ∀ c x, x ≠ home c → C x c < C (home c) c ∨ C x c = 0

/-- A node may take over what node `z` holds, if `z` is not the thread's own node or the
thread's own tick advances. -/
theorem Fresh.take {c : T} {x z : Node} (h : Fresh home C) (hown : C (home c) c ≤ C' (home c) c)
    (hx : x ≠ home c) (hle : C' x c ≤ max (C x c) (C z c))
    (hadv : z = home c → C (home c) c < C' (home c) c) :
    C' x c < C' (home c) c ∨ C' x c = 0 := by
  have hX := h c x hx
  by_cases hz : z = home c
  · have hlt := hadv hz
    rw [hz] at hle
    omega
  · have hZ := h c z hz
    omega

/-- Clocks that are all zero represent the empty history. -/
theorem represents_zero (hC : ∀ x c, C x c = 0) : Represents reads writes owner home V 0 C where
  writes_home := fun _ h => absurd h (Nat.not_lt_zero _)
  pos := fun _ h => absurd h (Nat.not_lt_zero _)
  known := fun _ h => absurd h (Nat.not_lt_zero _)
  stamp := fun _ h => absurd h (Nat.not_lt_zero _)
  fresh := fun _ _ _ => Or.inr (hC _ _)
  behind := fun _ h => absurd h (Nat.not_lt_zero _)

/-- A thread's node knows the thread's own events. -/
theorem Represents.known_home (h : Represents reads writes owner home V k C) {i : ℕ} (hi : i < k) :
    i ∈ Known reads writes k (home (owner i)) :=
  known_of_writes hi (h.writes_home i hi)

/-- **An advance of a thread's own tick** on its own node changes nothing. -/
theorem Represents.bump (h : Represents reads writes owner home V k C)
    (hne : ∀ x c, x ≠ home c → C' x c = C x c) (hle : ∀ c, C (home c) c ≤ C' (home c) c) :
    Represents reads writes owner home V k C' := by
  have hmono : ∀ x c, C x c ≤ C' x c := by
    intro x c
    by_cases hx : x = home c
    · subst hx
      exact hle c
    · exact (hne x c hx).ge
  refine ⟨h.writes_home, h.pos, fun i hi x hx => ?_, fun i hi x hx c => ?_, fun c x hx => ?_,
    fun i hi c hc => ?_⟩
  · by_cases hs : x = home (owner i)
    · subst hs
      exact h.known_home hi
    · rw [hne x _ hs] at hx
      exact h.known i hi x hx
  · exact (h.stamp i hi x hx c).trans (hmono x c)
  · rw [hne x c hx]
    exact (h.fresh c x hx).imp_left fun hlt => hlt.trans_le (hle c)
  · exact (h.behind i hi c hc).imp_left fun hlt => hlt.trans_le (hle c)

/-- What event `k` with stamp `V k` does to the clocks `C`, leaving `C'`. -/
structure Step (reads writes : ℕ → Set Node) (owner : ℕ → T) (home : T → Node) (V : ℕ → T → ℕ)
    (k : ℕ) (C C' : Node → T → ℕ) : Prop where
  /-- The event reads its owner's node. -/
  reads_home : home (owner k) ∈ reads k
  /-- The event writes its owner's node. -/
  writes_home : home (owner k) ∈ writes k
  /-- The owner has a tick. -/
  pos : 0 < V k (owner k)
  /-- The stamp is above the clocks of the nodes read. -/
  le_stamp : ∀ y ∈ reads k, ∀ c, C y c ≤ V k c
  /-- And it holds nothing else. -/
  stamp_eq : ∀ c, ∃ y ∈ reads k, V k c = C y c
  /-- A node that is written is raised to the stamp. -/
  written : ∀ x c, x ≠ home c → x ∈ writes k → C' x c = max (C x c) (V k c)
  /-- Other nodes are left alone. -/
  unwritten : ∀ x c, x ≠ home c → x ∉ writes k → C' x c = C x c
  /-- A thread's own tick does not decrease. -/
  own : ∀ c, C (home c) c ≤ C' (home c) c
  /-- Nor does the stamp exceed it where the thread's node is written. -/
  own_stamp : ∀ c, home c ∈ writes k → V k c ≤ C' (home c) c
  /-- A thread whose clock was passed to another node advances its own tick. -/
  advance : ∀ c, home c ∈ reads k → ∀ x ∈ writes k, x ≠ home c → C (home c) c < C' (home c) c

theorem Step.mono (hs : Step reads writes owner home V k C C') (x : Node) (c : T) : C x c ≤ C' x c := by
  by_cases hx : x = home c
  · subst hx
    exact hs.own c
  by_cases hw : x ∈ writes k
  · rw [hs.written x c hx hw]
    exact le_max_left _ _
  · exact (hs.unwritten x c hx hw).ge

theorem Step.stamp_le (hs : Step reads writes owner home V k C C') {x : Node} (hx : x ∈ writes k) (c : T) :
    V k c ≤ C' x c := by
  by_cases hc : x = home c
  · subst hc
    exact hs.own_stamp c hx
  · rw [hs.written x c hc hx]
    exact le_max_right _ _

/-- An event that reads its owner's node and one more, and writes its owner's: the owner
takes over what the other node holds. -/
theorem Step.acquire {y : Node} (hr : reads k = {home (owner k), y})
    (hw : writes k = {home (owner k)}) (hpos : 0 < C (home (owner k)) (owner k))
    (hV : ∀ c, V k c = max (C (home (owner k)) c) (C y c))
    (hset : ∀ c, home (owner k) ≠ home c → C' (home (owner k)) c = V k c)
    (hframe : ∀ x c, x ≠ home c → x ≠ home (owner k) → C' x c = C x c)
    (hown : ∀ c, C (home c) c ≤ C' (home c) c)
    (hstamp : ∀ c, home c = home (owner k) → V k c ≤ C' (home c) c)
    (hadv : ∀ c, y = home c → y ≠ home (owner k) → C (home c) c < C' (home c) c) :
    Step reads writes owner home V k C C' := by
  refine ⟨by simp [hr], by simp [hw], ?_, ?_, ?_, ?_, ?_, hown, ?_, ?_⟩
  · exact hpos.trans_le ((hV _).symm ▸ le_max_left _ _)
  · intro x hx c
    rw [hr] at hx
    rw [hV c]
    rcases hx with rfl | rfl
    · exact le_max_left _ _
    · exact le_max_right _ _
  · intro c
    rw [hr, hV c]
    rcases le_total (C (home (owner k)) c) (C y c) with h | h
    · exact ⟨y, by simp, max_eq_right h⟩
    · exact ⟨_, by simp, max_eq_left h⟩
  · intro x c hx hxw
    rw [hw] at hxw
    obtain rfl : x = home (owner k) := hxw
    rw [hset c hx, hV c, ← max_assoc, max_self]
  · intro x c hx hxw
    rw [hw] at hxw
    exact hframe x c hx hxw
  · intro c hc
    rw [hw] at hc
    exact hstamp c hc
  · intro c hc x hx hxc
    rw [hw] at hx
    rw [hr] at hc
    -- the node written is the owner's, so what is read of `c` comes from the other node
    rcases hc with hc | hc
    · exact absurd (hx.trans hc.symm) hxc
    · exact hadv c hc.symm fun hy => hxc (hx.trans (hy.symm.trans hc.symm))

/-- An event that only its owner's node takes part in. -/
theorem Step.internal (hr : reads k = {home (owner k)}) (hw : writes k = {home (owner k)})
    (hpos : 0 < C (home (owner k)) (owner k)) (hV : ∀ c, V k c = C (home (owner k)) c) :
    Step reads writes owner home V k C C := by
  refine .acquire (y := home (owner k)) (by simp [hr]) hw hpos (fun c => by rw [max_self, hV c])
    (fun c _ => (hV c).symm) (fun x c _ _ => rfl) (fun c => le_rfl) (fun c hc => ?_)
    fun c _ hne => absurd rfl hne
  rw [hV c, hc]

/-- An event that reads its owner's node and writes one more: the other node takes over what
the owner holds, and the owner moves on. -/
theorem Step.release {y : Node} (hr : reads k = {home (owner k)})
    (hw : writes k = {home (owner k), y}) (hpos : 0 < C (home (owner k)) (owner k))
    (hV : ∀ c, V k c = C (home (owner k)) c)
    (hset : ∀ c, y ≠ home c → C' y c = max (C y c) (V k c))
    (hframe : ∀ x c, x ≠ home c → x ≠ y → C' x c = C x c)
    (hown : ∀ c, C (home c) c ≤ C' (home c) c)
    (hstamp : ∀ c, home c = y → V k c ≤ C' (home c) c)
    (hadv : ∀ c, home c = home (owner k) → C (home c) c < C' (home c) c) :
    Step reads writes owner home V k C C' := by
  refine ⟨by simp [hr], by simp [hw], (hV _).symm ▸ hpos, ?_, ?_, ?_, ?_, hown, ?_, ?_⟩
  · intro x hx c
    rw [hr] at hx
    rw [hx, hV c]
  · exact fun c => ⟨_, by simp [hr], hV c⟩
  · intro x c hx hxw
    by_cases hxy : x = y
    · subst hxy
      exact hset c hx
    · rw [hw] at hxw
      rcases hxw with rfl | hxw
      · rw [hframe _ c hx hxy, hV c, max_self]
      · exact absurd hxw hxy
  · intro x c hx hxw
    exact hframe x c hx fun hxy => hxw (by simp [hw, hxy])
  · intro c hc
    rw [hw] at hc
    rcases hc with hc | hc
    · exact (hV c).le.trans (hc ▸ hown c)
    · exact hstamp c hc
  · intro c hc x _ _
    rw [hr] at hc
    exact hadv c hc

/-- The clocks are fresh after the event. -/
theorem Represents.fresh_step (h : Represents reads writes owner home V k C)
    (hs : Step reads writes owner home V k C C') (c : T) (x : Node) (hx : x ≠ home c) :
    C' x c < C' (home c) c ∨ C' x c = 0 := by
  have hfresh : Fresh home C := h.fresh
  by_cases hw : x ∈ writes k
  · obtain ⟨y, hy, hV⟩ := hs.stamp_eq c
    have hle := (hs.written x c hx hw).trans (congrArg _ hV)
    exact hfresh.take (hs.own c) hx hle.le fun hyc => hs.advance c (hyc ▸ hy) x hw hx
  · have hle := hs.unwritten x c hx hw
    exact hfresh.take (hs.own c) hx (z := x) (by omega) fun hxc => absurd hxc hx

/-- What the stamp of event `k` holds of another thread is behind that thread's tick. -/
theorem Represents.stamp_behind (h : Represents reads writes owner home V k C)
    (hs : Step reads writes owner home V k C C') {c : T} (hc : home (owner k) ≠ home c) :
    V k c < C' (home c) c ∨ V k c = 0 := by
  have hle := hs.stamp_le hs.writes_home c
  rcases h.fresh_step hs c _ hc with hlt | h0
  · exact Or.inl (hle.trans_lt hlt)
  · exact Or.inr (Nat.le_zero.mp (h0 ▸ hle))

/-- **One event** keeps the invariant. -/
theorem Represents.step (h : Represents reads writes owner home V k C)
    (hs : Step reads writes owner home V k C C') (hhome : Function.Injective home) :
    Represents reads writes owner home V (k + 1) C' := by
  refine ⟨fun i hi => ?_, fun i hi => ?_, fun i hi x hx => ?_, fun i hi x hx c => ?_,
    h.fresh_step hs, fun i hi c hc => ?_⟩ <;> rcases Nat.lt_succ_iff_lt_or_eq.mp hi with hi | rfl
  · exact h.writes_home i hi
  · exact hs.writes_home
  · exact h.pos i hi
  · exact hs.pos
  · -- an old event: either the node held its tick already, or it got it from the stamp
    by_cases hhome' : x = home (owner i)
    · subst hhome'
      exact known_mono k.le_succ (h.known_home hi)
    by_cases hw : x ∈ writes k
    · rw [hs.written x _ hhome' hw, le_max_iff] at hx
      rcases hx with hx | hx
      · exact known_mono k.le_succ (h.known i hi x hx)
      · obtain ⟨y, hy, hV⟩ := hs.stamp_eq (owner i)
        rw [hV] at hx
        exact known_succ.mpr (Or.inr ⟨hw, Or.inr ⟨y, hy, h.known i hi y hx⟩⟩)
    · rw [hs.unwritten x _ hhome' hw] at hx
      exact known_mono k.le_succ (h.known i hi x hx)
  · -- the event itself: a node that is not written is behind the owner's tick
    apply known_of_writes i.lt_succ_self
    by_contra hw
    have hne : x ≠ home (owner i) := fun hx' => hw (hx' ▸ hs.writes_home)
    rw [hs.unwritten x _ hne hw] at hx
    have hle := hs.le_stamp _ hs.reads_home (owner i)
    have hpos := hs.pos
    rcases h.fresh _ x hne with hlt | h0 <;> omega
  · -- an old event: the node knew it, or learned it through a node that is read
    rcases known_succ.mp hx with hx | ⟨hw, rfl | ⟨y, hy, hx⟩⟩
    · exact (h.stamp i hi x hx c).trans (hs.mono x c)
    · exact absurd hi (lt_irrefl _)
    · exact (h.stamp i hi y hx c).trans ((hs.le_stamp y hy c).trans (hs.stamp_le hw c))
  · rcases known_succ.mp hx with hx | ⟨hw, -⟩
    · exact absurd (lt_of_known hx) (lt_irrefl _)
    · exact hs.stamp_le hw c
  · exact (h.behind i hi c hc).imp_left fun hlt => hlt.trans_le (hs.own c)
  · exact h.stamp_behind hs fun hc' => hc (hhome hc').symm

/-- **Clocks are the order**: event `k` comes after event `i` exactly when its stamp is
above the stamp of `i`. -/
theorem Represents.before_iff (h : Represents reads writes owner home V k C)
    (hs : Step reads writes owner home V k C C') {i : ℕ} (hi : i < k) :
    (∀ c, V i c ≤ V k c) ↔ Before reads writes i k := by
  rw [before_iff_known]
  constructor
  · intro hle
    obtain ⟨y, hy, hV⟩ := hs.stamp_eq (owner i)
    exact ⟨y, hy, h.known i hi y (hV ▸ hle (owner i))⟩
  · rintro ⟨y, hy, hk⟩ c
    exact (h.stamp i hi y hk c).trans (hs.le_stamp y hy c)

/-- A later event of another thread never has a stamp below an earlier one's. -/
theorem Represents.not_le (h : Represents reads writes owner home V k C)
    (hs : Step reads writes owner home V k C C') {i : ℕ} (hi : i < k) (hne : owner k ≠ owner i) :
    ¬ ∀ c, V k c ≤ V i c := by
  intro hle
  have hk := hle (owner k)
  have hhome := hs.le_stamp _ hs.reads_home (owner k)
  have hpos := hs.pos
  rcases h.behind i hi _ hne with hlt | h0 <;> omega

end LogicalClock
