import Mathlib.Data.List.Nodup
import Schnauzer.Lib.Sessions

/-!
# Critical sections

Sessions that take one mutex, run their statements, and give it back. Another session may have its turn between any two
of these statements, but does nothing to what is shared while it has not the mutex.

## What is proved

* `serialised_of_exec` — **a run is as good as one in which the sessions come one after the other**, in the order in
  which they gave the mutex back. The order of a run goes on with the run, so that a session that had ended when another
  was started comes before it.
* `Serialised.exists_next` — the sessions do not wait for each other for ever.
-/

namespace Sessions

universe u

variable {D Q R α β ι : Type u}

/-- What is shared, and the session that has the mutex. -/
structure Guarded (D : Type u) where
  data : D
  holder : Option ℕ

/-- The statements of a session that takes the mutex. -/
inductive Locking (Q : Type u) : Type u where
  | lock
  | unlock
  /-- A statement in between. -/
  | inner (q : Q)

/-- One statement; nothing where the session waits for the mutex. -/
def lockingExec (act : D → Q → D × R) (t : ℕ) (s : Guarded D) : Locking Q → Option (Guarded D × Option R)
  | .lock => if s.holder = none then some ({ s with holder := some t }, none) else none
  | .unlock => some ({ s with holder := none }, none)
  | .inner q => some ({ s with data := (act s.data q).1 }, some (act s.data q).2)

/-- What is left of a session that has the mutex. -/
def Session.inside : Session Q R α → Session (Locking Q) (Option R) α
  | .done a => .exec .unlock fun _ => .done a
  | .exec q k => .exec (.inner q) fun r => r.elim .stop fun r => (k r).inside
  | .stop => .stop

/-- A session in a critical section. -/
def Session.guarded (x : Session Q R α) : Session (Locking Q) (Option R) α := .exec .lock fun _ => x.inside

/-- A session that no other interrupts. -/
def Session.eval (act : D → Q → D × R) : Session Q R α → D → D × Option α
  | .done a, d => (d, some a)
  | .exec q k, d => (k (act d q).2).eval act (act d q).1
  | .stop, d => (d, none)

/-- What the started sessions are. -/
def started (as : List (Act ι)) : List ι := as.filterMap fun a => match a with
  | .start i => some i
  | .next _ => none

variable (act : D → Q → D × R) (prog : ι → Session Q R α)

/-- Sessions one after the other, each with its number and with what it ended with. -/
inductive Serves (progs : List ι) : List (ℕ × α) → D → D → Prop where
  | nil {d : D} : Serves progs [] d d
  | snoc {log : List (ℕ × α)} {d₀ d d' : D} {t : ℕ} {i : ι} {a : α} (h : Serves progs log d₀ d)
    (ht : progs[t]? = some i) (heval : (prog i).eval act d = (d', some a)) : Serves progs (log ++ [(t, a)]) d₀ d'

/-- The sessions that have ended came one after the other; one that has the mutex comes next. -/
structure Serialised (d₀ : D) (progs : List ι) (log : List (ℕ × α))
    (c : Config (Guarded D) (Locking Q) (Option R) α) : Prop where
  length : progs.length = c.sessions.length
  served : ∃ d, Serves act prog progs log d₀ d ∧ (c.shared.holder = none → c.shared.data = d) ∧
    ∀ t : ℕ, c.shared.holder = some t → ∃ (i : ι) (x : Session Q R α), progs[t]? = some i ∧
      c.sessions[t]? = some x.inside ∧ x.eval act c.shared.data = (prog i).eval act d
  others : ∀ (t : ℕ) i, progs[t]? = some i → c.shared.holder ≠ some t →
    c.sessions[t]? = some (prog i).guarded ∨ ∃ a, c.sessions[t]? = some (.done a)
  done_iff : ∀ (t : ℕ) (a : α), c.sessions[t]? = some (.done a) ↔ (t, a) ∈ log
  nodup : (log.map Prod.fst).Nodup

variable {act prog} {d d₀ : D} {progs : List ι} {log : List (ℕ × α)} {t : ℕ} {i : ι} {as : List (Act ι)}
  {c c' : Config (Guarded D) (Locking Q) (Option R) α}

theorem Session.eval_bind (x : Session Q R α) (f : α → Session Q R β) (d : D) :
    (x.bind f).eval act d = match x.eval act d with
      | (d', some a) => (f a).eval act d'
      | (d', none) => (d', none) := by
  induction x generalizing d with
  | done a => rfl
  | stop => rfl
  | exec q k ih => exact ih (act d q).2 (act d q).1

theorem inside_done (a : α) : (Session.done a : Session Q R α).inside = .exec .unlock fun _ => .done a := rfl

theorem inside_exec (q : Q) (k : R → Session Q R α) : (Session.exec q k).inside =
    .exec (.inner q) fun r => r.elim .stop fun r => (k r).inside := rfl

theorem inside_stop : (Session.stop : Session Q R α).inside = .stop := rfl

theorem inside_ne_done (x : Session Q R α) (a : α) : x.inside ≠ .done a := by
  intro h
  cases x with
  | done b => cases (inside_done b).symm.trans h
  | exec q k => cases (inside_exec q k).symm.trans h
  | stop => cases inside_stop.symm.trans h

/-- A turn of a session that has not ended, and does not end with it, changes nothing of those that have. -/
theorem done_iff_set {xs : List (Session Q R α)} {x y : Session Q R α} (ht : xs[t]? = some x) (hx : ∀ a, x ≠ .done a)
    (hy : ∀ a, y ≠ .done a) (t' : ℕ) (a : α) : (xs.set t y)[t']? = some (.done a) ↔ xs[t']? = some (.done a) := by
  by_cases heq : t = t'
  · subst heq
    rw [List.getElem?_set_self (List.getElem?_eq_some_iff.mp ht).1, ht]
    exact iff_of_false (fun h => hy a (Option.some.inj h)) fun h => hx a (Option.some.inj h)
  · rw [List.getElem?_set_ne heq]

theorem getElem?_append_of_eq_some {γ : Type u} {xs : List γ} {x : γ} (h : xs[t]? = some x) (ys : List γ) :
    (xs ++ ys)[t]? = some x := by
  rw [List.getElem?_append_left (List.getElem?_eq_some_iff.mp h).1, h]

theorem Serves.append (h : Serves act prog progs log d₀ d) (js : List ι) : Serves act prog (progs ++ js) log d₀ d := by
  induction h with
  | nil => exact .nil
  | snoc _ ht heval ih => exact ih.snoc (getElem?_append_of_eq_some ht js) heval

theorem serialised_init (d : D) : Serialised act prog d [] [] ⟨⟨d, none⟩, []⟩ where
  length := rfl
  served := ⟨d, .nil, fun _ => rfl, nofun⟩
  others _ _ ht := by cases ht
  done_iff t a := ⟨nofun, nofun⟩
  nodup := .nil

/-- A session is started. -/
theorem Serialised.start (h : Serialised act prog d₀ progs log c) (i : ι) : Serialised act prog d₀ (progs ++ [i]) log
    { c with sessions := c.sessions ++ [(prog i).guarded] } where
  length := by rw [List.length_append, List.length_append, h.length]; rfl
  served := by
    obtain ⟨d, hserves, hfree, hheld⟩ := h.served
    refine ⟨d, hserves.append [i], hfree, fun t ht => ?_⟩
    obtain ⟨j, x, hj, hx, heval⟩ := hheld t ht
    exact ⟨j, x, getElem?_append_of_eq_some hj _, getElem?_append_of_eq_some hx _, heval⟩
  others t j hj ht := by
    rw [List.getElem?_append] at hj ⊢
    rw [← h.length]
    split_ifs at hj ⊢ with hlt
    · exact h.others t j hj ht
    · obtain ⟨hzero, rfl⟩ : t - progs.length = 0 ∧ i = j := by
        simpa using List.getElem?_eq_some_iff.mp hj
      rw [hzero]
      exact Or.inl rfl
  done_iff t a := by
    rw [← h.done_iff, List.getElem?_append]
    split_ifs with hlt
    · rfl
    · rw [List.getElem?_eq_none (Nat.le_of_not_lt hlt)]
      refine iff_of_false (fun hx => ?_) nofun
      cases List.mem_singleton.mp (List.mem_of_getElem? hx)
  nodup := h.nodup

/-- A session takes the mutex. -/
theorem Serialised.lock (h : Serialised act prog d₀ progs log c) (hi : progs[t]? = some i)
    (hsession : c.sessions[t]? = some (prog i).guarded) (hfree : c.shared.holder = none) :
    Serialised act prog d₀ progs log ⟨{ c.shared with holder := some t }, c.sessions.set t (prog i).inside⟩ where
  length := by rw [List.length_set, h.length]
  served := by
    obtain ⟨d, hserves, hdata, -⟩ := h.served
    refine ⟨d, hserves, nofun, fun t' ht' => ?_⟩
    obtain rfl := Option.some.inj ht'
    refine ⟨i, prog i, hi, ?_, by rw [hdata hfree]⟩
    exact List.getElem?_set_self (List.getElem?_eq_some_iff.mp hsession).1
  others t' j hj ht' := by
    have hne : t ≠ t' := fun heq => ht' (congrArg some heq)
    rw [List.getElem?_set_ne hne]
    exact h.others t' j hj (by rw [hfree]; nofun)
  done_iff t' a := (done_iff_set hsession (fun _ => nofun) (inside_ne_done _) t' a).trans (h.done_iff t' a)
  nodup := h.nodup

/-- A turn of the session that has the mutex. -/
theorem Serialised.inner {q : Q} {k : R → Session Q R α} (h : Serialised act prog d₀ progs log c)
    (hheld : c.shared.holder = some t) (hserves : Serves act prog progs log d₀ d) (hi : progs[t]? = some i)
    (hsession : c.sessions[t]? = some (Session.exec q k).inside)
    (heval : (Session.exec q k).eval act c.shared.data = (prog i).eval act d) :
    Serialised act prog d₀ progs log ⟨{ c.shared with data := (act c.shared.data q).1 },
      c.sessions.set t (k (act c.shared.data q).2).inside⟩ where
  length := by rw [List.length_set, h.length]
  served := by
    refine ⟨d, hserves, fun hnone => absurd (hheld.symm.trans hnone) (Option.some_ne_none t), fun t' ht' => ?_⟩
    obtain rfl : t = t' := Option.some.inj (hheld.symm.trans ht')
    exact ⟨i, _, hi, List.getElem?_set_self (List.getElem?_eq_some_iff.mp hsession).1, heval⟩
  others t' j hj ht' := by
    have hne : t ≠ t' := fun heq => ht' (heq ▸ hheld)
    rw [List.getElem?_set_ne hne]
    exact h.others t' j hj ht'
  done_iff t' a := (done_iff_set hsession (inside_ne_done _) (inside_ne_done _) t' a).trans (h.done_iff t' a)
  nodup := h.nodup

/-- A session gives the mutex back, and comes after those that have ended. -/
theorem Serialised.unlock {a : α} (h : Serialised act prog d₀ progs log c) (hheld : c.shared.holder = some t)
    (hserves : Serves act prog progs log d₀ d) (hi : progs[t]? = some i)
    (hsession : c.sessions[t]? = some (Session.done a : Session Q R α).inside)
    (heval : (Session.done a).eval act c.shared.data = (prog i).eval act d) :
    Serialised act prog d₀ progs (log ++ [(t, a)]) ⟨{ c.shared with holder := none }, c.sessions.set t (.done a)⟩ where
  length := by rw [List.length_set, h.length]
  served := ⟨c.shared.data, hserves.snoc hi heval.symm, fun _ => rfl, nofun⟩
  others t' j hj _ := by
    by_cases heq : t = t'
    · subst heq
      exact Or.inr ⟨a, List.getElem?_set_self (List.getElem?_eq_some_iff.mp hsession).1⟩
    · rw [List.getElem?_set_ne heq]
      exact h.others t' j hj fun hheld' => heq (Option.some.inj (hheld.symm.trans hheld'))
  done_iff t' b := by
    rw [List.mem_append, List.mem_singleton, ← h.done_iff]
    by_cases heq : t = t'
    · subst heq
      rw [List.getElem?_set_self (List.getElem?_eq_some_iff.mp hsession).1, hsession]
      constructor
      · rintro ⟨⟩
        exact Or.inr rfl
      · rintro (hb | ⟨⟨⟩⟩)
        · exact absurd (Option.some.inj hb) (inside_ne_done _ b)
        · rfl
    · rw [List.getElem?_set_ne heq]
      exact ⟨Or.inl, fun hor => hor.resolve_right fun hx => heq (congrArg Prod.fst hx).symm⟩
  nodup := by
    rw [List.map_append, List.map_singleton]
    refine List.Nodup.append h.nodup (List.nodup_singleton t) fun t' ht' heq => ?_
    obtain rfl := List.mem_singleton.mp heq
    obtain ⟨⟨_, b⟩, hmem, rfl⟩ := List.mem_map.mp ht'
    exact inside_ne_done _ b (Option.some.inj (hsession.symm.trans ((h.done_iff _ b).mpr hmem)))

/-- **A turn.** -/
theorem Serialised.next (h : Serialised act prog d₀ progs log c) (hnext : next (lockingExec act) c t = some c') :
    ∃ more, Serialised act prog d₀ progs (log ++ more) c' := by
  obtain ⟨q, k, s, r, ht, hexec, rfl⟩ := next_eq_some.mp hnext
  obtain ⟨i, hi⟩ : ∃ i, progs[t]? = some i :=
    ⟨_, List.getElem?_eq_getElem (h.length ▸ (List.getElem?_eq_some_iff.mp ht).1)⟩
  by_cases hheld : c.shared.holder = some t
  · obtain ⟨d, hserves, -, hheld'⟩ := h.served
    obtain ⟨i, x, hi, hx, heval⟩ := hheld' t hheld
    cases x with
    | done a =>
      cases ht.symm.trans (hx.trans (congrArg some (inside_done a)))
      cases hexec
      exact ⟨_, h.unlock hheld hserves hi hx heval⟩
    | exec q' k' =>
      cases ht.symm.trans (hx.trans (congrArg some (inside_exec q' k')))
      cases hexec
      exact ⟨[], by rw [List.append_nil]; exact h.inner hheld hserves hi hx heval⟩
    | stop => cases ht.symm.trans (hx.trans (congrArg some inside_stop))
  · obtain hguarded | ⟨a, hdone⟩ := h.others t i hi hheld
    · cases ht.symm.trans hguarded
      rw [lockingExec] at hexec
      split_ifs at hexec with hfree
      cases hexec
      exact ⟨[], by rw [List.append_nil]; exact h.lock hi hguarded hfree⟩
    · cases ht.symm.trans hdone

/-- **The sessions do not wait for each other for ever**, unless one has given up with the mutex. -/
theorem Serialised.exists_next {q : Locking Q} {k : Option R → Session (Locking Q) (Option R) α}
    (h : Serialised act prog d₀ progs log c) (ht : c.sessions[t]? = some (.exec q k))
    (hstop : ∀ t : ℕ, c.sessions[t]? ≠ some .stop) : ∃ t' c', Sessions.next (lockingExec act) c t' = some c' := by
  cases hholder : c.shared.holder with
  | none =>
    obtain ⟨i, hi⟩ : ∃ i, progs[t]? = some i :=
      ⟨_, List.getElem?_eq_getElem (h.length ▸ (List.getElem?_eq_some_iff.mp ht).1)⟩
    obtain hguarded | ⟨a, hdone⟩ := h.others t i hi (by rw [hholder]; nofun)
    · exact ⟨t, _, next_eq_some.mpr ⟨_, _, _, _, hguarded, if_pos hholder, rfl⟩⟩
    · cases ht.symm.trans hdone
  | some t' =>
    obtain ⟨_, -, -, hheld⟩ := h.served
    obtain ⟨_, x, -, hx, -⟩ := hheld t' hholder
    cases x with
    | done a => exact ⟨t', _, next_eq_some.mpr ⟨_, _, _, _, hx.trans (congrArg some (inside_done a)), rfl, rfl⟩⟩
    | exec q k => exact ⟨t', _, next_eq_some.mpr ⟨_, _, _, _, hx.trans (congrArg some (inside_exec q k)), rfl, rfl⟩⟩
    | stop => exact absurd hx (hstop t')

/-- **A run is serialised**, and one that goes on goes on with the order. -/
theorem serialised_of_exec (h : Serialised act prog d₀ progs log c)
    (hexec : Runs.exec (step (lockingExec act) fun i => (prog i).guarded) c as = some c') :
    ∃ more, Serialised act prog d₀ (progs ++ started as) (log ++ more) c' := by
  refine Runs.exec_invariant
    (I := fun as c => ∃ more, Serialised act prog d₀ (progs ++ started as) (log ++ more) c) hexec ?_ ?_
  · exact ⟨[], by rwa [started, List.filterMap_nil, List.append_nil, List.append_nil]⟩
  · rintro as c₁ (i | t) c₂ ⟨more, hc₁⟩ hstep
    · cases hstep
      refine ⟨more, ?_⟩
      rw [started, List.filterMap_append, ← List.append_assoc]
      exact hc₁.start i
    · obtain ⟨more', hc₂⟩ := hc₁.next hstep
      refine ⟨more ++ more', ?_⟩
      rw [started, List.filterMap_append, List.filterMap_cons_none rfl, List.filterMap_nil, List.append_nil,
        ← List.append_assoc]
      exact hc₂

end Sessions
