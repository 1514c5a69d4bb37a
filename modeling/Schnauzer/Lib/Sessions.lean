import Schnauzer.Lib.Runs

/-!
# Sessions that share a state

A session runs statements, one after the other, and goes on with the answer of each. Any number of sessions are started,
and take turns in any order; a statement is one step. One that has to wait is not run, and a session that is
given up is one that has no more turns.

Each session is looked at by itself. What it may count on while the others have their turns is a preorder `rely`; what
it does has to be what the others count on.

## What is proved

* `Sound.bind`, `Sound.mono` — how sessions are composed, and that the others do not disturb one that is sound.
* `sound_of_exec` — where all sessions are sound, wherever a run has come to.
* `AllSound.exists_next` — sound sessions do not wait for each other for ever.
* `countNext_le_of_exec` — how many turns there are.
-/

namespace Sessions

universe u

variable {S Q R α β ι : Type u}

/-- A session: statements, and what it ends with; `stop` is an end without a result. -/
inductive Session (Q R α : Type u) : Type u where
  /-- The end. -/
  | done (a : α)
  /-- A statement, and how the session goes on with its answer. -/
  | exec (q : Q) (k : R → Session Q R α)
  /-- The session gives up. -/
  | stop

/-- One session and then another. -/
def Session.bind (x : Session Q R α) (f : α → Session Q R β) : Session Q R β :=
  match x with
  | .done a => f a
  | .exec q k => .exec q fun r => (k r).bind f
  | .stop => .stop

instance : Monad (Session Q R) where
  pure := .done
  bind := .bind

/-- One statement. -/
def ask (q : Q) : Session Q R R := .exec q .done

/-- The state that is shared, and the sessions. -/
structure Config (S Q R α : Type u) where
  shared : S
  sessions : List (Session Q R α)

/-- What happens. -/
inductive Act (ι : Type u) : Type u where
  /-- A session is started. -/
  | start (i : ι)
  /-- A session has a turn. -/
  | next (t : ℕ)

variable (exec : ℕ → S → Q → Option (S × R)) (prog : ι → Session Q R α)

/-- One turn; `none` where the session has ended, or has to wait. -/
def next (c : Config S Q R α) (t : ℕ) : Option (Config S Q R α) :=
  match c.sessions[t]? with
  | some (.exec q k) => (exec t c.shared q).map fun x => ⟨x.1, c.sessions.set t (k x.2)⟩
  | _ => none

/-- One step of all. -/
def step (c : Config S Q R α) : Act ι → Option (Config S Q R α)
  | .start i => some { c with sessions := c.sessions ++ [prog i] }
  | .next t => next exec c t

/-- The sessions that are started. -/
def countStart (as : List (Act ι)) : ℕ := as.countP fun a => match a with
  | .start _ => true
  | .next _ => false

/-- The turns. -/
def countNext (as : List (Act ι)) : ℕ := as.countP fun a => match a with
  | .start _ => false
  | .next _ => true

/-! ### Sessions that are sound -/

variable (inv : S → Prop) (rely : ℕ → S → S → Prop) (holds : S → ℕ → Prop) (post : ℕ → Option α → S → Prop)

/-- What a session counts on between two of its turns: the others do not change what it holds, nor what it has come
to. -/
structure Stable : Prop where
  refl : ∀ t s, rely t s s
  trans : ∀ t s₁ s₂ s₃, rely t s₁ s₂ → rely t s₂ s₃ → rely t s₁ s₃
  holds : ∀ t s₁ s₂, rely t s₁ s₂ → (holds s₁ t ↔ holds s₂ t)
  post : ∀ t a s₁ s₂, rely t s₁ s₂ → inv s₂ → post t a s₁ → post t a s₂

/-- The session `t` does what the others count on and ends with what is asked for, whatever they do meanwhile. It waits
only while it holds nothing, and another holds something. -/
def Sound (t : ℕ) : Session Q R α → S → Prop
  | .done a, s => post t (some a) s
  | .stop, s => post t none s
  | .exec q k, s => ∀ s₁, rely t s s₁ → inv s₁ →
    (exec t s₁ q = none → ¬ holds s₁ t ∧ ∃ t', holds s₁ t') ∧
      ∀ s₂ r, exec t s₁ q = some (s₂, r) → inv s₂ ∧ (∀ t', t' ≠ t → rely t' s₁ s₂) ∧ Sound t (k r) s₂

/-- At most `n` statements. -/
def Within : ℕ → Session Q R α → Prop
  | _, .done _ => True
  | _, .stop => True
  | 0, .exec _ _ => False
  | n + 1, .exec _ k => ∀ r, Within n (k r)

variable {exec prog inv rely holds post} {x : Session Q R α} {s s' : S} {t n : ℕ} {as : List (Act ι)}
  {c c' : Config S Q R α}

/-- The others do not disturb a session. -/
theorem Sound.mono (hstable : Stable inv rely holds post) (h : Sound exec inv rely holds post t x s)
    (hrely : rely t s s') (hinv : inv s') : Sound exec inv rely holds post t x s' := by
  cases x with
  | done a => exact hstable.post t _ s s' hrely hinv h
  | stop => exact hstable.post t _ s s' hrely hinv h
  | exec q k => exact fun s₁ hs₁ => h s₁ (hstable.trans t s s' s₁ hrely hs₁)

/-- **One session and then another.** -/
theorem Sound.bind {mid : ℕ → Option α → S → Prop} {post : ℕ → Option β → S → Prop} {f : α → Session Q R β}
    (hx : Sound exec inv rely holds mid t x s) (hinv : inv s)
    (hf : ∀ a s', inv s' → mid t (some a) s' → Sound exec inv rely holds post t (f a) s')
    (hstop : ∀ s', mid t none s' → post t none s') : Sound exec inv rely holds post t (x.bind f) s := by
  induction x generalizing s with
  | done a => exact hf a s hinv hx
  | stop => exact hstop s hx
  | exec q k ih =>
    intro s₁ hs₁ hinv₁
    obtain ⟨hwait, hturn⟩ := hx s₁ hs₁ hinv₁
    refine ⟨hwait, fun s₂ r hexec => ?_⟩
    obtain ⟨hinv₂, hrely, hk⟩ := hturn s₂ r hexec
    exact ⟨hinv₂, hrely, ih r hk hinv₂⟩

/-! ### Runs -/

/-- What a turn is. -/
theorem next_eq_some : next exec c t = some c' ↔ ∃ q k s r, c.sessions[t]? = some (.exec q k) ∧
    exec t c.shared q = some (s, r) ∧ c' = ⟨s, c.sessions.set t (k r)⟩ := by
  rw [next]
  constructor
  · intro h
    split at h
    · next q k ht =>
      obtain ⟨⟨s, r⟩, hexec, rfl⟩ := Option.map_eq_some_iff.mp h
      exact ⟨q, k, s, r, ht, hexec, rfl⟩
    · cases h
  · rintro ⟨q, k, s, r, ht, hexec, rfl⟩
    rw [ht]
    simp only [hexec, Option.map_some]

/-- All sessions are sound, and what is held is held by them. -/
structure AllSound (exec : ℕ → S → Q → Option (S × R)) (inv : S → Prop) (rely : ℕ → S → S → Prop) (holds : S → ℕ → Prop)
    (post : ℕ → Option α → S → Prop) (c : Config S Q R α) : Prop where
  shared : inv c.shared
  sound : ∀ t x, c.sessions[t]? = some x → Sound exec inv rely holds post t x c.shared
  holder : ∀ t, holds c.shared t → t < c.sessions.length

/-- A session that is started. -/
theorem AllSound.start (h : AllSound exec inv rely holds post c)
    (hx : ∀ t s, inv s → ¬ holds s t → Sound exec inv rely holds post t x s) :
    AllSound exec inv rely holds post { c with sessions := c.sessions ++ [x] } where
  shared := h.shared
  sound t y hy := by
    rw [List.getElem?_append] at hy
    split_ifs at hy with ht
    · exact h.sound t y hy
    · obtain rfl : x = y := List.mem_singleton.mp (List.mem_of_getElem? hy) |>.symm
      exact hx t c.shared h.shared fun hholds => ht (h.holder t hholds)
  holder t ht := by
    rw [List.length_append]
    exact Nat.lt_add_right _ (h.holder t ht)

/-- A turn. -/
theorem AllSound.next (hstable : Stable inv rely holds post) (h : AllSound exec inv rely holds post c)
    (hnext : next exec c t = some c') : AllSound exec inv rely holds post c' := by
  obtain ⟨q, k, s, r, ht, hexec, rfl⟩ := next_eq_some.mp hnext
  obtain ⟨hinv, hrely, hk⟩ := (h.sound t _ ht c.shared (hstable.refl t _) h.shared).2 s r hexec
  have hlt : t < c.sessions.length := (List.getElem?_eq_some_iff.mp ht).1
  refine ⟨hinv, fun t' y hy => ?_, fun t' ht' => ?_⟩
  · rw [List.getElem?_set] at hy
    split_ifs at hy with heq
    · subst heq
      cases hy
      exact hk
    · exact (h.sound t' y hy).mono hstable (hrely t' (Ne.symm heq)) hinv
  · rw [List.length_set]
    by_cases heq : t' = t
    · exact heq ▸ hlt
    · exact h.holder t' ((hstable.holds t' _ _ (hrely t' heq)).mpr ht')

/-- **Wherever a run has come to**, all sessions are sound, if each is when it is started. -/
theorem sound_of_exec (hstable : Stable inv rely holds post) (hc : AllSound exec inv rely holds post c)
    (hprog : ∀ i t s, inv s → ¬ holds s t → Sound exec inv rely holds post t (prog i) s)
    (h : Runs.exec (step exec prog) c as = some c') : AllSound exec inv rely holds post c' := by
  refine Runs.exec_invariant (I := fun _ c => AllSound exec inv rely holds post c) h hc ?_
  rintro - c₁ (i | t) c₂ hc₁ hstep
  · cases hstep
    exact hc₁.start (hprog i)
  · exact hc₁.next hstable hstep

/-- **The sessions do not wait for each other for ever**: if one has not ended, one has a turn. -/
theorem AllSound.exists_next (hstable : Stable inv rely holds post) (h : AllSound exec inv rely holds post c)
    (hpost : ∀ t a s, post t a s → ¬ holds s t) {q : Q} {k : R → Session Q R α}
    (ht : c.sessions[t]? = some (.exec q k)) : ∃ t' c', Sessions.next exec c t' = some c' := by
  have hturn : ∀ t q k, c.sessions[t]? = some (.exec q k) → holds c.shared t →
      ∃ t' c', Sessions.next exec c t' = some c' := by
    intro t q k ht hholds
    cases hexec : exec t c.shared q with
    | none => exact absurd hholds ((h.sound t _ ht c.shared (hstable.refl t _) h.shared).1 hexec).1
    | some p => exact ⟨t, _, next_eq_some.mpr ⟨q, k, p.1, p.2, ht, hexec, rfl⟩⟩
  cases hexec : exec t c.shared q with
  | some p => exact ⟨t, _, next_eq_some.mpr ⟨q, k, p.1, p.2, ht, hexec, rfl⟩⟩
  | none =>
    -- what it waits for is held by another, which has not ended
    obtain ⟨t', ht'⟩ := ((h.sound t _ ht c.shared (hstable.refl t _) h.shared).1 hexec).2
    obtain ⟨y, hy⟩ : ∃ y, c.sessions[t']? = some y := ⟨_, List.getElem?_eq_getElem (h.holder t' ht')⟩
    cases y with
    | exec q' k' => exact hturn t' q' k' hy ht'
    | done a => exact absurd ht' (hpost t' _ _ (h.sound t' _ hy))
    | stop => exact absurd ht' (hpost t' _ _ (h.sound t' _ hy))

/-! ### How long a run is -/

theorem Within.mono {m : ℕ} (h : Within m x) (hle : m ≤ n) : Within n x := by
  induction x generalizing m n with
  | done a => cases n <;> trivial
  | stop => cases n <;> trivial
  | exec q k ih =>
    cases m with
    | zero => exact h.elim
    | succ m =>
      cases n with
      | zero => cases hle
      | succ n => exact fun r => ih r (h r) (Nat.le_of_succ_le_succ hle)

theorem Within.bind {m : ℕ} {f : α → Session Q R β} (hx : Within m x) (hf : ∀ a, Within n (f a)) :
    Within (m + n) (x.bind f) := by
  induction x generalizing m with
  | done a => exact (hf a).mono (Nat.le_add_left n m)
  | stop => cases m + n <;> trivial
  | exec q k ih =>
    cases m with
    | zero => exact hx.elim
    | succ m =>
      rw [Nat.succ_add]
      exact fun r => ih r (hx r)

/-- The sessions have at most so many statements together. -/
inductive WithinAll : ℕ → List (Session Q R α) → Prop where
  | nil : WithinAll 0 []
  | cons {m n : ℕ} {x : Session Q R α} {xs : List (Session Q R α)} (hx : Within n x) (hxs : WithinAll m xs) :
    WithinAll (m + n) (x :: xs)

theorem WithinAll.start {m : ℕ} {xs : List (Session Q R α)} (h : WithinAll m xs) (hx : Within n x) :
    WithinAll (m + n) (xs ++ [x]) := by
  induction h with
  | nil => exact .cons hx .nil
  | @cons m n' y xs hy hxs ih =>
    rw [Nat.add_right_comm]
    exact .cons hy ih

/-- A turn leaves one statement less. -/
theorem WithinAll.turn {m : ℕ} {xs : List (Session Q R α)} {q : Q} {k : R → Session Q R α} (h : WithinAll m xs)
    (ht : xs[t]? = some (.exec q k)) (r : R) : ∃ m', m = m' + 1 ∧ WithinAll m' (xs.set t (k r)) := by
  induction h generalizing t with
  | nil => cases ht
  | @cons m n x xs hx hxs ih =>
    cases t with
    | zero =>
      cases ht
      cases n with
      | zero => exact hx.elim
      | succ n => exact ⟨m + n, rfl, .cons (hx r) hxs⟩
    | succ t =>
      obtain ⟨m', rfl, hxs'⟩ := ih ht
      exact ⟨m' + n, Nat.add_right_comm .., .cons hx hxs'⟩

/-- **How many turns there are**: at most `n` for each session that is started. -/
theorem countNext_le_of_exec (hprog : ∀ i, Within n (prog i)) {s : S}
    (h : Runs.exec (step exec prog) ⟨s, []⟩ as = some c) : countNext as ≤ n * countStart as := by
  suffices ∃ m, countNext as + m = n * countStart as ∧ WithinAll m c.sessions by
    obtain ⟨m, hm, -⟩ := this
    omega
  refine Runs.exec_invariant
    (I := fun as c => ∃ m, countNext as + m = n * countStart as ∧ WithinAll m c.sessions) h ?_ ?_
  · exact ⟨0, rfl, .nil⟩
  · rintro as c₁ (i | t) c₂ ⟨m, hm, hwithin⟩ hstep
    · cases hstep
      refine ⟨m + n, ?_, hwithin.start (hprog i)⟩
      rw [countNext, countStart, List.countP_append, List.countP_append, ← countNext, ← countStart, Nat.mul_add, ← hm]
      simp
      omega
    · obtain ⟨q, k, s, r, ht, -, rfl⟩ := next_eq_some.mp hstep
      obtain ⟨m', rfl, hwithin'⟩ := hwithin.turn ht r
      refine ⟨m', ?_, hwithin'⟩
      rw [countNext, countStart, List.countP_append, List.countP_append, ← countNext, ← countStart, Nat.mul_add, ← hm]
      simp
      omega

end Sessions
