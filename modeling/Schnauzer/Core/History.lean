import Schnauzer.Core.HookShape

/-!
# The history under the wrappers

What holds of the history in every run: where the slots of the log were reserved, how the labels of
a thread lie between its creation and its end, and who owns a mutex at which label.

## What is proved

* `recorded_of_step` — what a step adds to the history.
* `Places.step`, `Threads.step`, `Owners.step` — each step keeps the three parts.
* `Owners.excl` — two threads own a mutex only with a release of the first in between.
-/

namespace Schnauzer

/-- A reservation of slots. -/
def Interface.Act.isLog : Interface.Act → Bool
  | .log _ _ => true
  | _ => false

namespace Interface

open Logger Runs

variable {cfg : Config} {s s' : State} {a : Action}

/-- The label at place `k`. -/
def State.At (s : State) (k t : ℕ) (act : Act) : Prop := s.hist[k]? = some ⟨t, act⟩

theorem State.At.lt {k t : ℕ} {act : Act} (h : s.At k t act) : k < s.hist.length :=
  (List.getElem?_eq_some_iff.mp h).1

theorem State.At.unique {k t u : ℕ} {act act' : Act} (h : s.At k t act) (h' : s.At k u act') :
    t = u ∧ act = act' := by
  have heq : (⟨t, act⟩ : Label) = ⟨u, act'⟩ := Option.some.inj (h.symm.trans h')
  cases heq
  exact ⟨rfl, rfl⟩

theorem getElem?_append_label {hist : List Label} {l x : Label} {k : ℕ} :
    (hist ++ [l])[k]? = some x ↔ hist[k]? = some x ∨ k = hist.length ∧ l = x := by
  rcases Nat.lt_trichotomy k hist.length with hk | rfl | hk
  · simp [List.getElem?_append_left hk, hk.ne]
  · simp
  · have hk' : ¬ k < hist.length := not_lt.mpr hk.le
    have hlen : ¬ k < (hist ++ [l]).length := by simp; omega
    rw [List.getElem?_eq_none (not_lt.mp hlen), List.getElem?_eq_none (not_lt.mp hk')]
    constructor
    · intro h
      cases h
    · rintro (h | ⟨rfl, -⟩)
      · cases h
      · exact absurd hk (lt_irrefl _)

/-- One more label. -/
theorem at_append {k t u : ℕ} {act act' : Act} (h : s'.hist = s.hist ++ [⟨u, act'⟩]) :
    s'.At k t act ↔ s.At k t act ∨ k = s.hist.length ∧ u = t ∧ act' = act := by
  unfold State.At
  rw [h, getElem?_append_label, Label.mk.injEq]

theorem at_length {u : ℕ} {act : Act} (h : s'.hist = s.hist ++ [⟨u, act⟩]) : s'.At s.hist.length u act :=
  (at_append h).mpr (Or.inr ⟨rfl, rfl, rfl⟩)

/-! ### Hooks -/

/-- The next call of a hook, by cases. -/
theorem Pc.head_cases {pc next : Pc} {call : Call} {stmt : Stmt} (h : pc.head = some (call, stmt, next)) :
    (∃ todo slot, pc = .before call (stmt :: todo) slot ∧ next = .before call todo slot) ∨
      ∃ r todo lab, pc = .after call r (stmt :: todo) lab ∧ next = .after call r todo lab := by
  cases pc with
  | before c todo slot =>
    cases todo with
    | nil => cases h
    | cons stmt' todo =>
      cases h
      exact Or.inl ⟨todo, slot, rfl, rfl⟩
  | after c r todo lab =>
    cases todo with
    | nil => cases h
    | cons stmt' todo =>
      cases h
      exact Or.inr ⟨r, todo, lab, rfl, rfl⟩
  | _ => cases h

/-- What is left of a hook is a part of it. -/
def Pc.Shape (cfg : Config) : Pc → Prop
  | .before call todo _ => todo <:+ call.before cfg.log
  | .after call r todo _ => todo <:+ call.after r
  | _ => True

theorem Pc.Shape.head {pc next : Pc} {call : Call} {stmt : Stmt} (h : pc.Shape cfg)
    (hpc : pc.head = some (call, stmt, next)) : next.Shape cfg := by
  rcases Pc.head_cases hpc with ⟨todo, slot, rfl, rfl⟩ | ⟨r, todo, lab, rfl, rfl⟩
  · exact (List.suffix_cons stmt todo).trans h
  · exact (List.suffix_cons stmt todo).trans h

theorem Pc.shape_took {pc : Pc} {n : ℕ} : (pc.took n).Shape cfg ↔ pc.Shape cfg := by
  cases pc <;> rfl

/-- The rest of a list of two. -/
theorem suffix_pair {α : Type} {x y z : α} {xs : List α} (h : z :: xs <:+ [x, y]) :
    z = x ∧ xs = [y] ∨ z = y ∧ xs = [] := by
  rcases List.suffix_cons_iff.mp h with heq | h
  · cases heq
    exact Or.inl ⟨rfl, rfl⟩
  · rcases List.suffix_cons_iff.mp h with heq | h
    · cases heq
      exact Or.inr ⟨rfl, rfl⟩
    · cases List.suffix_nil.mp h

/-- **A call of the logger in a hook.** -/
theorem Pc.Shape.log {pc next : Pc} {call : Call} {lc : LogCall} (h : pc.Shape cfg)
    (hpc : pc.head = some (call, .log lc, next)) :
    (∃ todo slot, pc = .before call (.log lc :: todo) slot ∧ next = .before call todo slot ∧
        (call.op.logsBefore = some lc ∧ todo = [] ∨
          call.op.logsBefore = none ∧ (lc.isAccess ∨ lc = .endBatch))) ∨
      ∃ r todo lab, pc = .after call r (.log lc :: todo) lab ∧ next = .after call r todo lab ∧
        (call.op ≠ .create ∧ call.op.logsAfter r = some lc ∧ todo = [] ∨
          call.op = .create ∧ (lc = .logThreadCreateEvent r ∧ todo = [.log .endBatch] ∨
            lc = .endBatch ∧ todo = [])) := by
  rcases Pc.head_cases hpc with ⟨todo, slot, rfl, rfl⟩ | ⟨r, todo, lab, rfl, rfl⟩
  · refine Or.inl ⟨todo, slot, rfl, rfl, ?_⟩
    cases hlog : call.op.logsBefore with
    | none => exact Or.inr ⟨rfl, Call.access_of_before hlog (List.IsSuffix.mem List.mem_cons_self h)⟩
    | some lc' =>
      obtain ⟨c, hc⟩ := Call.before_of_logs cfg.log hlog
      simp only [Pc.Shape, hc] at h
      rcases suffix_pair h with ⟨heq, -⟩ | ⟨heq, rfl⟩
      · cases heq
      · cases heq
        exact Or.inl ⟨rfl, rfl⟩
  · refine Or.inr ⟨r, todo, lab, rfl, rfl, ?_⟩
    by_cases hop : call.op = .create
    · refine Or.inr ⟨hop, ?_⟩
      simp only [Pc.Shape, Call.after_of_create hop] at h
      rcases List.suffix_cons_iff.mp h with heq | h
      · cases heq
      · rcases suffix_pair h with ⟨heq, rfl⟩ | ⟨heq, rfl⟩
        · cases heq
          exact Or.inl ⟨rfl, rfl⟩
        · cases heq
          exact Or.inr ⟨rfl, rfl⟩
    · refine Or.inl ⟨hop, ?_⟩
      cases hlog : call.op.logsAfter r with
      | none =>
        exact absurd (List.IsSuffix.mem List.mem_cons_self h) (Call.not_mem_after hlog)
      | some lc' =>
        obtain ⟨c, hc⟩ := Call.after_of_logs hlog hop
        simp only [Pc.Shape, hc] at h
        rcases suffix_pair h with ⟨heq, -⟩ | ⟨heq, rfl⟩
        · cases heq
        · cases heq
          exact ⟨rfl, rfl⟩

theorem shape_of_step (hstep : Stepped cfg s a s') (h : ∀ t, (s.thr t).pc.Shape cfg) :
    ∀ t, (s'.thr t).pc.Shape cfg := by
  intro t
  by_cases ht : t = a.thread
  swap
  · rcases thr_of_ne hstep ht with heq | ⟨-, -, -, heq⟩ | ⟨call, depth, i, -, heq⟩
    · rw [heq]
      exact h t
    · rw [heq]
      trivial
    · rw [heq]
      trivial
  subst ht
  cases hstep with
  | @call t call hpc hall =>
    simp only [Action.thread]
    rcases enter_pc cfg s t call with ⟨hpc', -⟩ | ⟨hpc', -⟩
    · rw [hpc']
      exact List.suffix_rfl
    · rw [hpc']
      trivial
  | @skip t call c next hpend hpc =>
    simp only [Action.thread, State.setPc_self]
    exact (h t).head hpc
  | @log t call lc next log l hpend hpc hlog hsz =>
    simp only [Action.thread, State.setPc_self]
    exact (h t).head hpc
  | @reserve t call lc next log l hpend hpc hlog hsz =>
    simp only [Action.thread, State.setPc_self]
    exact Pc.shape_took.mpr ((h t).head hpc)
  | @store t log l hlog => simpa [Action.thread, State.setLog] using h t
  | @second t call r lab hpc =>
    simp only [Action.thread, State.setPc_self]
    split_ifs
    · exact List.suffix_rfl
    · trivial
  | @exit t hpc hc =>
    simp only [Action.thread, beforeExit, State.setPc_self]
    split_ifs <;> trivial
  | @flush t i hpc =>
    simp only [Action.thread]
    exact flushRound_place hpc (fun _ => trivial) trivial
  | _ =>
    simp only [Action.thread, State.setPc_self]
    trivial

/-! ### What a step adds -/

/-- A thread that is in an operation. -/
def Pc.busy (pc : Pc) : Prop := pc.call ≠ none

/-- Thread `t` does `act`; `slot` is the first slot that the hook before it reserved for its event, if
there is such a hook. -/
def Performed (s : State) (t : ℕ) (slot : Option ℕ) (s' : State) : Act → Prop
  | .log _ _ => False
  | .spawn c => c = s.nrThread ∧ s'.nrThread = s.nrThread + 1 ∧ s'.owner = s.owner ∧
      ∃ call, (s.thr t).pc = .atCall call slot ∧ call.op = .create ∧ (s'.thr t).pc = .done call c none
  | .joined c => slot = none ∧ (s.thr c).pc = .ended ∧ s'.owner = s.owner ∧
      ∃ call slot', (s.thr t).pc = .atCall call slot' ∧ call.op = .join c ∧
        (s'.thr t).pc = .done call c (nextLab s)
  | .acquire m => slot = none ∧ (s.owner m = none ∨ s.owner m = some t) ∧
      s'.owner = Function.update s.owner m (some t) ∧
      ∃ call slot', (s.thr t).pc = .atCall call slot' ∧ call.op.acquires = some m ∧
        (s'.thr t).pc = .done call 0 (nextLab s)
  | .release m => s.owner m = some t ∧ (∃ o, s'.owner = Function.update s.owner m o) ∧
      ∃ call, (s.thr t).pc = .atCall call slot ∧
        (call.op = .mutexUnlock m ∧ (s'.thr t).pc = .done call 0 none ∨
          ∃ c depth, call.op.waitsWith = some (c, m) ∧ (s'.thr t).pc = .waiting call depth none)
  | .signal c i => i = s.hist.length ∧ s'.owner = s.owner ∧
      ∃ call, (s.thr t).pc = .atCall call slot ∧ call.op.signals = some c ∧
        (s'.thr t).pc = .done call 0 none
  | .awake c m cause => slot = none ∧ s.owner m = none ∧ s'.owner = Function.update s.owner m (some t) ∧
      ∃ call depth, (s.thr t).pc = .waiting call depth cause ∧ call.op.waitsWith = some (c, m) ∧
        (s'.thr t).pc = .done call 0 (nextLab s)
  | .rdlock _ | .wrlock _ | .rdunlock _ | .wrunlock _ => slot = none ∧ s'.owner = s.owner ∧
      ∃ call slot', (s.thr t).pc = .atCall call slot' ∧ call.op.isRwlock ∧
        (s'.thr t).pc = .done call 0 none

/-- What a step adds to the history. -/
inductive Recorded (s : State) (a : Action) (s' : State) : Prop where
  /-- Nothing. -/
  | same (hhist : s'.hist = s.hist) (hplace : s'.place = s.place) (hrep : s'.rep = s.rep)
      (hsz : s'.log.logSz = s.log.logSz) (howner : s'.owner = s.owner)
  /-- A reservation of slots. -/
  | log {call : Call} {lc : LogCall} {next : Pc} (hpc : (s.thr a.thread).pc.head = some (call, .log lc, next))
      (hsz : s.log.logSz < s'.log.logSz) (hhist : s'.hist = s.hist ++ [⟨a.thread, .log lc s.log.logSz⟩])
      (hplace : s'.place = fun k => if s.log.logSz ≤ k then s.hist.length else s.place k)
      (hrep : s'.rep = match next.lab with
        | some i => Function.update s.rep i (some s.log.logSz)
        | none => s.rep)
      (howner : s'.owner = s.owner) (hnext : (s'.thr a.thread).pc = next.took s.log.logSz)
  /-- A label that is none. -/
  | act (act : Act) (slot : Option ℕ) (hact : Performed s a.thread slot s' act)
      (hhist : s'.hist = s.hist ++ [⟨a.thread, act⟩]) (hplace : s'.place = s.place)
      (hrep : s'.rep = Function.update s.rep s.hist.length slot) (hsz : s'.log.logSz = s.log.logSz)

theorem Pc.busy_of_head {pc next : Pc} {call : Call} {stmt : Stmt} (h : pc.head = some (call, stmt, next)) :
    pc.busy := by
  rw [Pc.busy, (Pc.call_of_head h).1]
  exact Option.some_ne_none _

/-- **What a step adds.** -/
theorem recorded_of_step (hstep : Stepped cfg s a s') : Recorded s a s' := by
  cases hstep with
  | @call t call hpc hall =>
    obtain ⟨started, pc, heq⟩ := enter_eq cfg s t call
    rw [heq]
    exact .same rfl rfl rfl rfl rfl
  | @log t call lc next log l hpend hpc hlog hsz =>
    refine .same rfl rfl rfl (le_antisymm hsz ?_) rfl
    have hle := logSz_le_exec cfg.log call.isOnStack call.inst t s.log (s.thr t).log lc
    rw [hlog] at hle
    exact hle
  | @reserve t call lc next log l hpend hpc hlog hsz => exact .log hpc hsz rfl rfl rfl rfl (by simp [Action.thread])
  | @store t log l hlog => exact .same rfl rfl rfl (store_logSz hlog) rfl
  | @flush t i hpc =>
    obtain ⟨pc, file, aborted, heq⟩ := flushRound_eq s t i
    rw [heq]
    exact .same rfl rfl rfl rfl rfl
  | @spawn t call slot x hpc hop hlt =>
    exact .act (.spawn s.nrThread) slot ⟨rfl, rfl, rfl, call, hpc, hop, by simp [Action.thread]⟩
      rfl rfl rfl rfl
  | @joined t u call slot x hpc hop hend =>
    exact .act (.joined u) none ⟨rfl, hend, rfl, call, slot, hpc, hop, by simp [Action.thread]⟩
      rfl rfl rfl rfl
  | @acquire t m call slot x hpc hop hown =>
    exact .act (.acquire m) none ⟨rfl, hown, rfl, call, slot, hpc, hop, by simp [Action.thread]⟩
      rfl rfl rfl rfl
  | @release t m call slot x hpc hop hown =>
    exact .act (.release m) slot
      ⟨hown, ⟨_, rfl⟩, call, hpc, Or.inl ⟨hop, by simp [Action.thread]⟩⟩ rfl rfl rfl rfl
  | @wait t c m call slot x hpc hop hown =>
    exact .act (.release m) slot
      ⟨hown, ⟨_, rfl⟩, call, hpc, Or.inr ⟨c, s.depth m, hop, by simp [Action.thread]⟩⟩ rfl rfl rfl rfl
  | @signal t c call slot x p hpc hop =>
    exact .act (.signal c s.hist.length) slot ⟨rfl, rfl, call, hpc, hop, by simp [Action.thread]⟩
      rfl rfl rfl rfl
  | @rwlock t call slot x act writer readers hpc hop hact =>
    refine .act (act) none ?_ rfl rfl rfl rfl
    cases act <;> first
      | exact ⟨rfl, rfl, call, slot, hpc, hop, by simp [Action.thread]⟩
      | cases hact
  | @wakeUp t c m call depth cause hpc hop hown =>
    exact .act (.awake c m cause) none ⟨rfl, hown, rfl, call, depth, hpc, hop, by simp [Action.thread]⟩
      rfl rfl rfl rfl
  | _ => exact .same rfl rfl rfl rfl rfl

/-- The thread is in an operation, and the label is no reservation. -/
theorem Performed.busy {t : ℕ} {slot : Option ℕ} {act : Act} (h : Performed s t slot s' act) :
    (s.thr t).pc.busy ∧ act.isLog = false := by
  have hat : ∀ {call : Call} {slot : Option ℕ}, (s.thr t).pc = .atCall call slot → (s.thr t).pc.busy :=
    fun h => by rw [Pc.busy, h]; exact Option.some_ne_none _
  cases act with
  | log => exact h.elim
  | spawn =>
    obtain ⟨-, -, -, call, hpc, -⟩ := h
    exact ⟨hat hpc, rfl⟩
  | joined =>
    obtain ⟨-, -, -, call, slot', hpc, -⟩ := h
    exact ⟨hat hpc, rfl⟩
  | acquire =>
    obtain ⟨-, -, -, call, slot', hpc, -⟩ := h
    exact ⟨hat hpc, rfl⟩
  | release =>
    obtain ⟨-, -, call, hpc, -⟩ := h
    exact ⟨hat hpc, rfl⟩
  | signal =>
    obtain ⟨-, -, call, hpc, -⟩ := h
    exact ⟨hat hpc, rfl⟩
  | awake =>
    obtain ⟨-, -, -, call, depth, hpc, -⟩ := h
    exact ⟨by rw [Pc.busy, hpc]; exact Option.some_ne_none _, rfl⟩
  | rdlock | wrlock | rdunlock | wrunlock =>
    obtain ⟨-, -, call, slot', hpc, -⟩ := h
    exact ⟨hat hpc, rfl⟩

/-- And in no hook. -/
theorem Performed.not_hooked {t : ℕ} {slot : Option ℕ} {act : Act} (h : Performed s t slot s' act) :
    (s.thr t).pc.hooked = false := by
  cases act with
  | log => exact h.elim
  | spawn =>
    obtain ⟨-, -, -, call, hpc, -⟩ := h
    rw [hpc]
    rfl
  | joined | acquire =>
    obtain ⟨-, -, -, call, slot', hpc, -⟩ := h
    rw [hpc]
    rfl
  | rdlock | wrlock | rdunlock | wrunlock =>
    obtain ⟨-, -, call, slot', hpc, -⟩ := h
    rw [hpc]
    rfl
  | release | signal =>
    obtain ⟨-, -, call, hpc, -⟩ := h
    rw [hpc]
    rfl
  | awake =>
    obtain ⟨-, -, -, call, depth, hpc, -⟩ := h
    rw [hpc]
    rfl

/-- A hook adds a label where it reserves slots. -/
theorem Recorded.hist_eq (hrec : Recorded s a s') (hhook : (s.thr a.thread).pc.hooked)
    (hsz : s'.log.logSz = s.log.logSz) : s'.hist = s.hist := by
  cases hrec with
  | same hhist => exact hhist
  | log _ hlt => exact absurd hsz hlt.ne'
  | act act slot hdo => exact absurd (hdo.not_hooked.symm.trans hhook) (by simp)

/-- The thread that adds a label is in an operation. -/
theorem Recorded.busy (h : Recorded s a s') : s'.hist = s.hist ∨ (s.thr a.thread).pc.busy := by
  cases h with
  | same hhist => exact Or.inl hhist
  | log hpc => exact Or.inr (Pc.busy_of_head hpc)
  | act _ _ hact => exact Or.inr hact.busy.1

/-- **One label more, at most.** -/
theorem Recorded.at (h : Recorded s a s') {k t : ℕ} {act : Act} (hat : s'.At k t act) :
    s.At k t act ∨ k = s.hist.length ∧ t = a.thread ∧ (s.thr t).pc.busy ∧
      s'.hist = s.hist ++ [⟨t, act⟩] := by
  cases h with
  | same hhist =>
    unfold State.At at hat
    rw [hhist] at hat
    exact Or.inl hat
  | log hpc _ hhist =>
    rcases (at_append hhist).mp hat with h | ⟨rfl, rfl, rfl⟩
    · exact Or.inl h
    · exact Or.inr ⟨rfl, rfl, Pc.busy_of_head hpc, hhist⟩
  | act _ _ hact hhist =>
    rcases (at_append hhist).mp hat with h | ⟨rfl, rfl, rfl⟩
    · exact Or.inl h
    · exact Or.inr ⟨rfl, rfl, hact.busy.1, hhist⟩

/-- What has been done, at a label that is new. -/
theorem Recorded.performed (h : Recorded s a s') {t : ℕ} {act : Act} (hhist : s'.hist = s.hist ++ [⟨t, act⟩])
    (hact : act.isLog = false) : ∃ slot, Performed s t slot s' act := by
  have hlabel : ∀ {l : Label}, s'.hist = s.hist ++ [l] → l = ⟨t, act⟩ := fun h =>
    List.singleton_inj.mp (List.append_cancel_left (h.symm.trans hhist))
  cases h with
  | same hhist' =>
    have hlen := congrArg List.length (hhist'.symm.trans hhist)
    simp at hlen
  | log _ _ hhist' =>
    cases hlabel hhist'
    cases hact
  | act _ _ hdo hhist' =>
    cases hlabel hhist'
    exact ⟨_, hdo⟩

/-- No label is lost. -/
theorem Recorded.mono (h : Recorded s a s') {k t : ℕ} {act : Act} (hat : s.At k t act) : s'.At k t act := by
  cases h with
  | same hhist =>
    unfold State.At
    rw [hhist]
    exact hat
  | log _ _ hhist => exact (at_append hhist).mpr (Or.inl hat)
  | act _ _ _ hhist => exact (at_append hhist).mpr (Or.inl hat)

theorem Recorded.length_le (h : Recorded s a s') : s.hist.length ≤ s'.hist.length := by
  cases h with
  | same hhist => rw [hhist]
  | log _ _ hhist => simp [hhist]
  | act _ _ _ hhist => simp [hhist]

/-! ### Places -/

/-- Where the slots of the log were reserved. -/
structure Places (s : State) : Prop where
  /-- A slot was reserved at a label, whose first slot is not above it. -/
  slot : ∀ n < s.log.logSz, ∃ t lc f, s.At (s.place n) t (.log lc f) ∧ f ≤ n
  /-- Slots are in the order of their places. -/
  mono : ∀ n m, n ≤ m → m < s.log.logSz → s.place n ≤ s.place m
  /-- The first slot of a label. -/
  first : ∀ p t lc f, s.At p t (.log lc f) → f < s.log.logSz ∧ s.place f = p ∧ ∀ m < f, s.place m < p

theorem Places.init : Places init where
  slot := fun n hn => absurd hn (Nat.not_lt_zero n)
  mono := fun n m _ hm => absurd hm (Nat.not_lt_zero m)
  first := fun p t lc f h => by cases h

theorem Places.place_lt (h : Places s) {n : ℕ} (hn : n < s.log.logSz) : s.place n < s.hist.length := by
  obtain ⟨t, lc, f, hat, -⟩ := h.slot n hn
  exact hat.lt

/-- A place that is earlier is of a smaller slot. -/
theorem Places.lt_of_place_lt (h : Places s) {n m : ℕ} (hn : n < s.log.logSz)
    (hlt : s.place n < s.place m) : n < m := by
  by_contra hge
  exact absurd (h.mono m n (not_lt.mp hge) hn) (not_le.mpr hlt)

theorem Places.step (h : Places s) (hrec : Recorded s a s') : Places s' := by
  cases hrec with
  | same hhist hplace hrep hsz howner =>
    obtain ⟨hslot, hmono, hfirst⟩ := h
    unfold State.At at hslot hfirst
    refine ⟨?_, ?_, ?_⟩
    · unfold State.At
      rw [hhist, hplace, hsz]
      exact hslot
    · rw [hplace, hsz]
      exact hmono
    · unfold State.At
      rw [hhist, hplace, hsz]
      exact hfirst
  | @log call lc next hpc hsz hhist hplace hrep howner hnext =>
    have hold : ∀ n, n < s.log.logSz → s'.place n = s.place n := by
      intro n hn
      rw [hplace]
      exact if_neg (not_le.mpr hn)
    have hnew : ∀ n, s.log.logSz ≤ n → s'.place n = s.hist.length := by
      intro n hn
      rw [hplace]
      exact if_pos hn
    refine ⟨fun n hn => ?_, fun n m hnm hm => ?_, fun p t lc' f hat => ?_⟩
    · by_cases hlt : n < s.log.logSz
      · obtain ⟨t, lc', f, hat, hf⟩ := h.slot n hlt
        rw [hold n hlt]
        exact ⟨t, lc', f, (at_append hhist).mpr (Or.inl hat), hf⟩
      · rw [hnew n (not_lt.mp hlt)]
        exact ⟨_, _, _, at_length hhist, not_lt.mp hlt⟩
    · by_cases hlt : m < s.log.logSz
      · rw [hold m hlt, hold n (hnm.trans_lt hlt)]
        exact h.mono n m hnm hlt
      · rw [hnew m (not_lt.mp hlt)]
        by_cases hlt' : n < s.log.logSz
        · rw [hold n hlt']
          exact (h.place_lt hlt').le
        · rw [hnew n (not_lt.mp hlt')]
    · rcases (at_append hhist).mp hat with hat | ⟨rfl, -, heq⟩
      · obtain ⟨hf, hp, hm⟩ := h.first p t lc' f hat
        refine ⟨hf.trans hsz, (hold f hf).trans hp, fun m hlt => ?_⟩
        rw [hold m (hlt.trans hf)]
        exact hm m hlt
      · cases heq
        refine ⟨hsz, hnew _ le_rfl, fun m hm => ?_⟩
        rw [hold m hm]
        exact h.place_lt hm
  | act _ _ hact hhist hplace hrep hsz =>
    refine ⟨fun n hn => ?_, ?_, fun p t lc f hat => ?_⟩
    · obtain ⟨t, lc, f, hat, hf⟩ := h.slot n (hsz ▸ hn)
      rw [hplace]
      exact ⟨t, lc, f, (at_append hhist).mpr (Or.inl hat), hf⟩
    · rw [hplace, hsz]
      exact h.mono
    · rcases (at_append hhist).mp hat with hat | ⟨-, -, rfl⟩
      · rw [hplace, hsz]
        exact h.first p t lc f hat
      · cases hact.busy.2

/-! ### Threads -/

/-- A thread that has ended does nothing more. -/
theorem ended_of_step (hstart : Start s) (hstep : Stepped cfg s a s') {t : ℕ} (h : (s.thr t).pc = .ended) :
    (s'.thr t).pc = .ended := by
  by_cases ht : t = a.thread
  swap
  · rcases thr_of_ne hstep ht with heq | ⟨hc, -⟩ | ⟨call, depth, i, hw, -⟩
    · rw [heq]
      exact h
    · rw [hstart.absent t hc.ge] at h
      cases h
    · rw [hw] at h
      cases h
  subst ht
  have hno : ∀ {pc : Pc}, (s.thr a.thread).pc = pc → pc ≠ .ended → False := fun heq hne =>
    hne (heq.symm.trans h)
  have hhead : ∀ {x : Call × Stmt × Pc}, (s.thr a.thread).pc.head = some x → False := by
    intro x hx
    rw [h] at hx
    cases hx
  cases hstep with
  | store hlog => simpa [Action.thread, State.setLog] using h
  | skip _ hpc | log _ hpc | reserve _ hpc => exact absurd hpc (fun hpc => hhead hpc)
  | call hpc | atCall _ hpc | idle _ hpc | plain hpc | spawn hpc | joined hpc | acquire hpc | release hpc
  | wait hpc | signal _ hpc | rwlock _ _ _ hpc | wakeUp hpc | second hpc | exit hpc | flush hpc | leave hpc
  | finish hpc => exact (hno hpc (by simp)).elim

/-- A wait that has been woken. -/
theorem woken_of_step (hstep : Stepped cfg s a s') {t i depth : ℕ} {call : Call}
    (h : (s'.thr t).pc = .waiting call depth (some i)) :
    (s.thr t).pc = .waiting call depth (some i) ∨
      ∃ c m, call.op.waitsWith = some (c, m) ∧ i = s.hist.length ∧ s'.At i a.thread (.signal c i) := by
  have hset : ∀ (s₁ : State) {u : ℕ} {pc : Pc}, ((s₁.setPc u pc).thr t).pc = .waiting call depth (some i) →
      (∀ call depth i, pc ≠ .waiting call depth (some i)) → (s₁.thr t).pc = .waiting call depth (some i) := by
    intro s₁ u pc h hpc
    rw [State.setPc_thr] at h
    split_ifs at h with htu
    · exact absurd h (hpc _ _ _)
    · exact h
  have hhead : ∀ {u : ℕ} {call' : Call} {stmt : Stmt} {next : Pc},
      (s.thr u).pc.head = some (call', stmt, next) →
        (∀ call depth i, next ≠ .waiting call depth (some i)) ∧
          ∀ n call depth i, next.took n ≠ .waiting call depth (some i) := by
    intro u call' stmt next hpc
    rcases Pc.head_cases hpc with ⟨todo, slot, -, rfl⟩ | ⟨r, todo, lab, -, rfl⟩
    · exact ⟨fun _ _ _ => by simp, fun _ _ _ _ => by simp [Pc.took]⟩
    · exact ⟨fun _ _ _ => by simp, fun _ _ _ _ => by simp [Pc.took]⟩
  cases hstep with
  | @call u call' hpc hall =>
    apply Or.inl
    unfold enter at h
    dsimp only at h
    split_ifs at h <;> exact hset _ h (by simp)
  | skip _ hpc => exact Or.inl (hset _ h (hhead hpc).1)
  | @log u call' lc next log l _ hpc =>
    apply Or.inl
    have h' := hset _ h (hhead hpc).1
    by_cases htu : t = u
    · subst htu
      simpa [State.setLog] using h'
    · simpa [State.setLog, Function.update_of_ne htu] using h'
  | @reserve u call' lc next log l _ hpc =>
    apply Or.inl
    have h' := hset _ h ((hhead hpc).2 _)
    by_cases htu : t = u
    · subst htu
      simpa [State.setLog, State.reserve] using h'
    · simpa [State.setLog, State.reserve, Function.update_of_ne htu] using h'
  | @store u log l hlog =>
    apply Or.inl
    by_cases htu : t = u
    · subst htu
      simpa [State.setLog] using h
    · simpa [State.setLog, Function.update_of_ne htu] using h
  | @spawn u call' slot x hpc hop hlt =>
    exact Or.inl (hset s (hset s.spawn h (by simp)) (by simp))
  | @signal u c call' slot x p hpc hop =>
    have h' := hset _ h (by simp)
    simp only [State.record, State.wake] at h'
    split_ifs at h' with hw
    swap
    · exact Or.inl h'
    have hwait := (Bool.and_eq_true_iff.mp hw).2
    cases hpc' : (s.thr t).pc with
    | waiting call'' depth' cause =>
      rw [hpc'] at hwait h'
      cases cause with
      | some j => cases hwait
      | none =>
        cases h'
        apply Or.inr
        simp only [Pc.waitsFor] at hwait
        split at hwait
        next c' m hop' =>
          obtain rfl := of_decide_eq_true hwait
          exact ⟨c', m, by rw [hop']; rfl, rfl, at_length rfl⟩
        next c' m hop' =>
          obtain rfl := of_decide_eq_true hwait
          exact ⟨c', m, by rw [hop']; rfl, rfl, at_length rfl⟩
        next => cases hwait
    | _ =>
      rw [hpc'] at hwait
      cases hwait
  | @second u call' r lab hpc => exact Or.inl (hset _ h (by split_ifs <;> simp))
  | @exit u hpc hc => exact Or.inl (hset _ h (by split_ifs <;> simp))
  | @flush u j hpc =>
    apply Or.inl
    unfold flushRound at h
    split_ifs at h
    · split at h
      · split_ifs at h
        · exact h
        · exact hset s h (by simp)
        · exact h
      · exact h
    · exact hset _ h (by simp)
  | _ => exact Or.inl (hset _ h (by simp))

/-- The labels of a thread lie between its creation and its end; a wait returns after the signal that
woke it. -/
structure Threads (s : State) : Prop where
  alive : ∀ k t act, s.At k t act → t < s.nrThread
  spawned : ∀ k t c, s.At k t (.spawn c) → c < s.nrThread ∧ ∀ j act, s.At j c act → k < j
  joined : ∀ k t c, s.At k t (.joined c) → (s.thr c).pc = .ended ∧ ∀ j act, s.At j c act → j < k
  waiting : ∀ t call depth i c m, (s.thr t).pc = .waiting call depth (some i) →
    call.op.waitsWith = some (c, m) → ∃ u, s.At i u (.signal c i)
  awake : ∀ k t c m i, s.At k t (.awake c m (some i)) → i < k ∧ ∃ u, s.At i u (.signal c i)

theorem Threads.init : Threads init where
  alive := fun k t act h => by cases h
  spawned := fun k t c h => by cases h
  joined := fun k t c h => by cases h
  waiting := fun t call depth i c m h => by
    by_cases ht : t = 0
    · simp [Interface.init, ht] at h
    · simp [Interface.init, ht] at h
  awake := fun k t c m i h => by cases h

theorem Start.lt_of_busy (hstart : Start s) {t : ℕ} (h : (s.thr t).pc.busy) : t < s.nrThread := by
  by_contra hge
  rw [hstart.absent t (not_lt.mp hge)] at h
  exact h rfl

theorem Threads.step (h : Threads s) (hstart : Start s) (hstep : Stepped cfg s a s') : Threads s' := by
  have hrec := recorded_of_step hstep
  have hnr : s.nrThread ≤ s'.nrThread := by
    rcases nrThread_of_step hstep with heq | ⟨heq, -⟩ <;> omega
  refine ⟨fun k t act hat => ?_, fun k t c hat => ?_, fun k t c hat => ?_,
    fun t call depth i c m hw hop => ?_, fun k t c m i hat => ?_⟩
  · rcases hrec.at hat with hat | ⟨-, -, hbusy, -⟩
    · exact (h.alive k t act hat).trans_le hnr
    · exact (hstart.lt_of_busy hbusy).trans_le hnr
  · rcases hrec.at hat with hat | ⟨rfl, rfl, -, hhist⟩
    · obtain ⟨hlt, hall⟩ := h.spawned k t c hat
      refine ⟨hlt.trans_le hnr, fun j act hj => ?_⟩
      rcases hrec.at hj with hj | ⟨rfl, -⟩
      · exact hall j act hj
      · exact hat.lt
    · -- the new thread has the next number
      obtain ⟨slot, hdo⟩ := hrec.performed hhist rfl
      obtain ⟨rfl, hnr', -⟩ := hdo
      refine ⟨by omega, fun j act hj => ?_⟩
      rcases hrec.at hj with hj | ⟨-, hc, hbusy, -⟩
      · exact absurd (h.alive j _ act hj) (lt_irrefl _)
      · exact absurd (hstart.lt_of_busy hbusy) (lt_irrefl _)
  · have hend : (s.thr c).pc = .ended ∧ ∀ j act, s.At j c act → j < k := by
      rcases hrec.at hat with hat | ⟨rfl, rfl, -, hhist⟩
      · exact h.joined k t c hat
      · obtain ⟨slot, -, hend, -⟩ := hrec.performed hhist rfl
        exact ⟨hend, fun j act hj => hj.lt⟩
    refine ⟨ended_of_step hstart hstep hend.1, fun j act hj => ?_⟩
    rcases hrec.at hj with hj | ⟨-, -, hbusy, -⟩
    · exact hend.2 j act hj
    · rw [hend.1] at hbusy
      exact absurd rfl hbusy
  · rcases woken_of_step hstep hw with hw | ⟨c', m', hop', rfl, hat⟩
    · obtain ⟨u, hu⟩ := h.waiting t call depth i c m hw hop
      exact ⟨u, hrec.mono hu⟩
    · cases hop.symm.trans hop'
      exact ⟨_, hat⟩
  · rcases hrec.at hat with hat | ⟨rfl, rfl, -, hhist⟩
    · obtain ⟨hlt, u, hu⟩ := h.awake k t c m i hat
      exact ⟨hlt, u, hrec.mono hu⟩
    · obtain ⟨slot, -, -, -, call, depth, hpc, hop, -⟩ := hrec.performed hhist rfl
      obtain ⟨u, hu⟩ := h.waiting _ call depth i c m hpc hop
      exact ⟨hu.lt, u, hrec.mono hu⟩

end Interface

end Schnauzer
