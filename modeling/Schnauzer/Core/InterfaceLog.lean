import Mathlib.Algebra.Order.BigOperators.Group.Finset
import Mathlib.Order.Interval.Finset.Nat
import Schnauzer.Core.Interface

/-!
# The log under the wrappers

What holds of the threads, the two flags of `Control` and the log in every state of a run. A thread
whose wrapper did not run a hook, because the test failed, may leave a batch open; but then the
flags see to it that it runs no hook any more.

## What is proved

* `Start.step` — before `setStarted` there is one thread, and it runs no hook.
* `LogInv.step` — the slots of the log stay in order in all runs.
-/

namespace Schnauzer.Interface

open Logger Runs

variable {cfg : Config} {s s' : State} {a : Action}

/-! ### Threads and flags -/

/-- A thread in a hook. -/
def Pc.hooked : Pc → Bool
  | .before _ _ _ | .after _ _ _ _ => true
  | _ => false

/-- The operation of a thread. -/
def Pc.call : Pc → Option Call
  | .before call _ _ | .atCall call _ | .waiting call _ _ | .done call _ _ | .after call _ _ _ => some call
  | _ => none

theorem Pc.hooked_of_head {pc : Pc} {x : Call × Stmt × Pc} (h : pc.head = some x) : pc.hooked := by
  cases pc <;> first | rfl | cases h

theorem Pc.call_of_head {pc next : Pc} {call : Call} {stmt : Stmt} (h : pc.head = some (call, stmt, next)) :
    pc.call = some call ∧ next.call = some call ∧ next.hooked := by
  cases pc with
  | before c todo slot =>
    cases todo with
    | nil => cases h
    | cons stmt' todo =>
      cases h
      exact ⟨rfl, rfl, rfl⟩
  | after c r todo lab =>
    cases todo with
    | nil => cases h
    | cons stmt' todo =>
      cases h
      exact ⟨rfl, rfl, rfl⟩
  | _ => cases h

@[simp] theorem Pc.call_took (pc : Pc) (n : ℕ) : (pc.took n).call = pc.call := by
  cases pc <;> rfl

@[simp] theorem Pc.hooked_took (pc : Pc) (n : ℕ) : (pc.took n).hooked = pc.hooked := by
  cases pc <;> rfl

/-- Only a call of `pthread_create` sets the first flag. -/
theorem started_of_step (hstep : Stepped cfg s a s') : s'.started = s.started ∨
    s.started = none ∧ s'.started = some s.hist.length ∧
      ∃ t call, a = .call t call ∧ call.op = .create ∧ (s.thr t).pc = .idle := by
  cases hstep with
  | @call t call hpc hall =>
    by_cases hop : call.op = .create
    · cases hs : s.started with
      | none => exact Or.inr ⟨rfl, by simp [enter, hop, State.setPc, State.setStarted, hs], t, call, rfl, hop, hpc⟩
      | some i =>
        apply Or.inl
        simp [enter, hop, State.setPc, State.setStarted, hs]
    · apply Or.inl
      simp [enter, hop, State.setPc]
  | @flush t i hpc =>
    obtain ⟨pc, file, aborted, heq⟩ := flushRound_eq s t i
    rw [heq]
    exact Or.inl rfl
  | _ => exact Or.inl rfl

/-- Only `exit` sets the second. -/
theorem finished_of_step (hstep : Stepped cfg s a s') :
    s'.finished = s.finished ∨ s'.finished = some (s.finished.getD s.hist.length) ∧ s'.hist = s.hist := by
  cases hstep with
  | @call t call hpc hall =>
    obtain ⟨started, pc, heq⟩ := enter_eq cfg s t call
    rw [heq]
    exact Or.inl rfl
  | exit hpc hc => exact Or.inr ⟨rfl, rfl⟩
  | @flush t i hpc =>
    obtain ⟨pc, file, aborted, heq⟩ := flushRound_eq s t i
    rw [heq]
    exact Or.inl rfl
  | _ => exact Or.inl rfl

theorem started_mono (hstep : Stepped cfg s a s') (h : s.started ≠ none) : s'.started ≠ none := by
  rcases started_of_step hstep with heq | ⟨-, heq, -⟩
  · rw [heq]
    exact h
  · rw [heq]
    exact Option.some_ne_none _

theorem finished_mono (hstep : Stepped cfg s a s') (h : s.finished ≠ none) : s'.finished ≠ none := by
  rcases finished_of_step hstep with heq | ⟨heq, -⟩
  · rw [heq]
    exact h
  · rw [heq]
    exact Option.some_ne_none _

/-- Before `setStarted` there is one thread, in no hook and in no `pthread_create`. -/
structure Start (s : State) : Prop where
  pos : 0 < s.nrThread
  /-- The threads that are there have the first numbers. -/
  absent : ∀ t, s.nrThread ≤ t → (s.thr t).pc = .absent
  other : s.started = none → ∀ t, t ≠ 0 → (s.thr t).pc = .absent
  hooked : ∀ t, (s.thr t).pc.hooked → s.started ≠ none
  create : ∀ t call, (s.thr t).pc.call = some call → call.op = .create → s.started ≠ none

theorem Start.start : Start init where
  pos := Nat.zero_lt_one
  absent := fun t ht => if_neg (by rintro rfl; exact absurd ht (by decide))
  other := fun _ t ht => if_neg ht
  hooked := fun t h => by
    by_cases ht : t = 0
    · simp [init, ht, Pc.hooked] at h
    · simp [init, ht, Pc.hooked] at h
  create := fun t call h => by
    by_cases ht : t = 0
    · simp [init, ht, Pc.call] at h
    · simp [init, ht, Pc.call] at h

theorem flushRound_pc (s : State) (t i : ℕ) :
    ((flushRound s t i).thr t).pc = (s.thr t).pc ∨ ((flushRound s t i).thr t).pc = .flushing (i + 1) ∨
      ((flushRound s t i).thr t).pc = .ended := by
  unfold flushRound
  split_ifs
  · split
    · split_ifs
      · exact Or.inl rfl
      · exact Or.inr (Or.inl (State.setPc_self s t _))
      · exact Or.inl rfl
    · exact Or.inl rfl
  · exact Or.inr (Or.inr (State.setPc_self s t _))

/-- A thread that flushes goes on flushing, or has ended. -/
theorem flushRound_place {P : Pc → Prop} {t i : ℕ} (hpc : (s.thr t).pc = .flushing i) (hflush : ∀ j, P (.flushing j))
    (hend : P .ended) : P ((flushRound s t i).thr t).pc := by
  rcases flushRound_pc s t i with h | h | h
  · rw [h, hpc]
    exact hflush i
  · rw [h]
    exact hflush (i + 1)
  · rw [h]
    exact hend

theorem enter_pc (cfg : Config) (s : State) (t : ℕ) (call : Call) :
    ((enter cfg s t call).thr t).pc = .before call (call.before cfg.log) none ∧
        (enter cfg s t call).started ≠ none ∧ s.finished = none ∨
      ((enter cfg s t call).thr t).pc = .atCall call none ∧
        ((enter cfg s t call).started = none ∨ s.finished ≠ none) := by
  unfold enter
  dsimp only
  split_ifs with hop hneed hneed
  · refine Or.inl ⟨by simp, ?_, ?_⟩
    · simp [State.setPc, State.setStarted]
    · simpa [State.needInstrument, State.setStarted] using hneed
  · refine Or.inr ⟨by simp, Or.inr ?_⟩
    simpa [State.needInstrument, State.setStarted, Option.isNone_iff_eq_none] using hneed
  · have hneed' := Bool.and_eq_true_iff.mp hneed
    refine Or.inl ⟨by simp, ?_, by simpa using hneed'.2⟩
    simpa [State.setPc, Option.isSome_iff_ne_none] using hneed'.1
  · refine Or.inr ⟨by simp, ?_⟩
    by_cases hs : s.started = none
    · exact Or.inl hs
    · refine Or.inr fun hf => hneed ?_
      simp [State.needInstrument, hf, Option.isSome_iff_ne_none, hs]

/-- **The thread that takes a step** goes on with its operation, begins one, or is in none; a hook is
begun only after `setStarted`. -/
theorem own_pc (hstep : Stepped cfg s a s') :
    (s'.thr a.thread).pc = (s.thr a.thread).pc ∨
      ((s.thr a.thread).pc ≠ .absent ∧ (s'.thr a.thread).pc ≠ .absent) ∧
      ((s'.thr a.thread).pc.call = (s.thr a.thread).pc.call ∨ (s'.thr a.thread).pc.call = none ∨
        ∃ call, a = .call a.thread call ∧ (s'.thr a.thread).pc.call = some call ∧
          (call.op = .create → s'.started ≠ none)) ∧
      ((s'.thr a.thread).pc.hooked → (s.thr a.thread).pc.hooked ∨ s'.started ≠ none) := by
  have hhead : ∀ {t : ℕ} {call : Call} {stmt : Stmt} {next pc : Pc}, (s.thr t).pc.head = some (call, stmt, next) → pc.call = next.call →
      pc.hooked = next.hooked → ((s.thr t).pc ≠ .absent ∧ pc ≠ .absent) ∧
        (pc.call = (s.thr t).pc.call ∨ pc.call = none ∨
          ∃ call, a = .call a.thread call ∧ pc.call = some call ∧ (call.op = .create → s'.started ≠ none)) ∧
        (pc.hooked → (s.thr t).pc.hooked ∨ s'.started ≠ none) := by
    intro t call stmt next pc hpc hc hh
    obtain ⟨hcall, hcall', hhook⟩ := Pc.call_of_head hpc
    refine ⟨⟨fun h => ?_, fun h => ?_⟩, Or.inl (hc.trans (hcall'.trans hcall.symm)),
      fun _ => Or.inl (Pc.hooked_of_head hpc)⟩
    · rw [h] at hpc
      cases hpc
    · rw [h] at hc
      cases hc.trans hcall'
  cases hstep with
  | @call t call hpc hall =>
    have hcall : call.op = .create → (enter cfg s t call).started ≠ none := by
      intro hop
      simp [enter, hop, State.setPc, State.setStarted]
    simp only [Action.thread]
    rcases enter_pc cfg s t call with ⟨h, hst, -⟩ | ⟨h, -⟩
    · rw [hpc, h]
      exact Or.inr ⟨by simp, Or.inr (Or.inr ⟨call, rfl, rfl, hcall⟩), fun _ => Or.inr hst⟩
    · rw [hpc, h]
      exact Or.inr ⟨by simp, Or.inr (Or.inr ⟨call, rfl, rfl, hcall⟩), fun hf => by cases hf⟩
  | @skip t call c next hpend hpc =>
    simp only [Action.thread, State.setPc_self]
    exact Or.inr (hhead hpc rfl rfl)
  | @log t call lc next log l hpend hpc hlog hsz =>
    simp only [Action.thread, State.setPc_self]
    exact Or.inr (hhead hpc rfl rfl)
  | @reserve t call lc next log l hpend hpc hlog hsz =>
    simp only [Action.thread, State.setPc_self]
    exact Or.inr (hhead hpc (Pc.call_took _ _) (Pc.hooked_took _ _))
  | @store t log l hlog => exact Or.inl (by simp [Action.thread, State.setLog])
  | @flush t i hpc =>
    simp only [Action.thread]
    rcases flushRound_pc s t i with h | h | h
    · exact Or.inl h
    · rw [h, hpc]
      exact Or.inr ⟨by simp, Or.inl rfl, fun hf => by cases hf⟩
    · rw [h, hpc]
      exact Or.inr ⟨by simp, Or.inl rfl, fun hf => by cases hf⟩
  | @second t call r lab hpc =>
    simp only [Action.thread, State.setPc_self, hpc]
    split_ifs with hneed
    · refine Or.inr ⟨by simp, Or.inl rfl, fun _ => Or.inr ?_⟩
      simpa [State.setPc, Option.isSome_iff_ne_none] using (Bool.and_eq_true_iff.mp hneed).1
    · exact Or.inr ⟨by simp, Or.inr (Or.inl rfl), fun hf => by cases hf⟩
  | @exit t hpc hc =>
    simp only [Action.thread, beforeExit, State.setPc_self, hpc]
    split_ifs
    · exact Or.inr ⟨by simp, Or.inr (Or.inl rfl), fun hf => by cases hf⟩
    · exact Or.inr ⟨by simp, Or.inr (Or.inl rfl), fun hf => by cases hf⟩
  | finish hpc | leave hpc =>
    simp only [Action.thread, State.setPc_self, hpc]
    exact Or.inr ⟨by simp, Or.inr (Or.inl rfl), fun hf => by cases hf⟩
  | idle hpend hpc =>
    simp only [Action.thread, State.setPc_self, hpc]
    exact Or.inr ⟨by simp, Or.inr (Or.inl rfl), fun hf => by cases hf⟩
  | atCall _ hpc | plain hpc | spawn hpc | joined hpc | acquire hpc | release hpc | wait hpc | signal _ hpc
  | rwlock _ _ _ hpc | wakeUp hpc =>
    simp only [Action.thread, State.setPc_self, hpc]
    exact Or.inr ⟨by simp, Or.inl rfl, fun hf => by cases hf⟩

/-- **An operation begins** with the call of its wrapper. -/
theorem call_of_step (hstep : Stepped cfg s a s') {t : ℕ} {call : Call} (h : (s'.thr t).pc.call = some call) :
    (s.thr t).pc.call = some call ∨ a = .call t call := by
  by_cases ht : t = a.thread
  · subst ht
    rcases own_pc hstep with heq | ⟨-, heq | heq | ⟨call', hact, heq, -⟩, -⟩
    · exact Or.inl (by rwa [heq] at h)
    · exact Or.inl (by rwa [heq] at h)
    · rw [heq] at h
      cases h
    · rw [heq] at h
      cases h
      exact Or.inr hact
  · rcases thr_of_ne hstep ht with heq | ⟨-, -, -, heq⟩ | ⟨call', depth, i, hw, heq⟩
    · exact Or.inl (by rwa [heq] at h)
    · rw [heq] at h
      cases h
    · rw [heq] at h
      exact Or.inl (by rw [hw]; exact h)

/-- The number of threads grows only with a new one. -/
theorem nrThread_of_step (hstep : Stepped cfg s a s') : s'.nrThread = s.nrThread ∨
    s'.nrThread = s.nrThread + 1 ∧ s.nrThread < MAX_NR_THREAD ∧
      ∃ call slot, (s.thr a.thread).pc = .atCall call slot ∧ call.op = .create := by
  cases hstep with
  | @call t call hpc hall =>
    obtain ⟨started, pc, heq⟩ := enter_eq cfg s t call
    rw [heq]
    exact Or.inl rfl
  | spawn hpc hop hlt => exact Or.inr ⟨rfl, hlt, _, _, hpc, hop⟩
  | @flush t i hpc =>
    obtain ⟨pc, file, aborted, heq⟩ := flushRound_eq s t i
    rw [heq]
    exact Or.inl rfl
  | _ => exact Or.inl rfl

theorem nrThread_le (hstep : Stepped cfg s a s') (h : s.nrThread ≤ MAX_NR_THREAD) :
    s'.nrThread ≤ MAX_NR_THREAD := by
  rcases nrThread_of_step hstep with heq | ⟨heq, hlt, -⟩
  · rw [heq]
    exact h
  · omega

theorem Start.step (h : Start s) (hstep : Stepped cfg s a s') : Start s' := by
  have hle : s.nrThread ≤ s'.nrThread := by
    rcases nrThread_of_step hstep with heq | ⟨heq, -⟩ <;> omega
  have hown : s.nrThread ≤ a.thread → (s'.thr a.thread).pc = .absent := by
    intro hge
    rcases own_pc hstep with heq | ⟨⟨hne, -⟩, -⟩
    · rw [heq, h.absent _ hge]
    · exact absurd (h.absent _ hge) hne
  have hstart : s'.started = none → s.started = none := fun h' => by
    by_contra hne
    exact started_mono hstep hne h'
  refine ⟨h.pos.trans_le hle, fun t ht => ?_, fun hnone t ht => ?_, fun t hhook => ?_,
    fun t call hcall hop => ?_⟩
  · by_cases hta : t = a.thread
    · rw [hta] at ht ⊢
      exact hown (hle.trans ht)
    · rcases thr_of_ne hstep hta with heq | ⟨hc, hnr, ⟨call, slot, hpc, hop⟩, -⟩ | ⟨call, depth, i, hw, -⟩
      · rw [heq]
        exact h.absent t (hle.trans ht)
      · omega
      · rw [h.absent t (hle.trans ht)] at hw
        cases hw
  · by_cases hta : t = a.thread
    · rw [hta] at ht ⊢
      rcases own_pc hstep with heq | ⟨⟨hne, -⟩, -⟩
      · rw [heq]
        exact h.other (hstart hnone) _ ht
      · exact absurd (h.other (hstart hnone) _ ht) hne
    · rcases thr_of_ne hstep hta with heq | ⟨hc, hnr, ⟨call, slot, hpc, hop⟩, -⟩ | ⟨call, depth, i, hw, -⟩
      · rw [heq]
        exact h.other (hstart hnone) t ht
      · exact absurd (hstart hnone) (h.create _ call (by rw [hpc]; rfl) hop)
      · rw [h.other (hstart hnone) t ht] at hw
        cases hw
  · by_cases hta : t = a.thread
    · rw [hta] at hhook
      rcases own_pc hstep with heq | ⟨-, -, hh⟩
      · rw [heq] at hhook
        exact started_mono hstep (h.hooked _ hhook)
      · rcases hh hhook with hh | hh
        · exact started_mono hstep (h.hooked _ hh)
        · exact hh
    · rcases thr_of_ne hstep hta with heq | ⟨-, -, -, heq⟩ | ⟨call, depth, i, -, heq⟩
      · rw [heq] at hhook
        exact started_mono hstep (h.hooked t hhook)
      · rw [heq] at hhook
        cases hhook
      · rw [heq] at hhook
        cases hhook
  · by_cases hta : t = a.thread
    · rw [hta] at hcall
      rcases own_pc hstep with heq | ⟨-, heq | heq | ⟨call', -, heq, hst⟩, -⟩
      · rw [heq] at hcall
        exact started_mono hstep (h.create _ call hcall hop)
      · rw [heq] at hcall
        exact started_mono hstep (h.create _ call hcall hop)
      · rw [heq] at hcall
        cases hcall
      · rw [heq] at hcall
        cases hcall
        exact hst hop
    · rcases thr_of_ne hstep hta with heq | ⟨-, -, -, heq⟩ | ⟨call', depth, i, hw, heq⟩
      · rw [heq] at hcall
        exact started_mono hstep (h.create t call hcall hop)
      · rw [heq] at hcall
        cases hcall
      · rw [heq] at hcall
        exact started_mono hstep (h.create t call (by rw [hw]; exact hcall) hop)

/-- The first flag is set when there is one thread. -/
theorem Start.started_of_ne (h : Start s) (hstep : Stepped cfg s a s') {t : ℕ} (ht : t ≠ a.thread) :
    s'.started = s.started ∨ (s.thr t).pc = .absent := by
  rcases started_of_step hstep with hs | ⟨hs, -, t', call, rfl, -, hidle⟩
  · exact Or.inl hs
  · have ht' : t' = 0 := by
      by_contra hne
      rw [h.other hs t' hne] at hidle
      cases hidle
    exact Or.inr (h.other hs t fun ht0 => ht (ht0.trans ht'.symm))

/-! ### The log -/

/-- A step that is none of the logger. -/
structure Quiet (s : State) (a : Action) (s' : State) : Prop where
  noLog : ∀ t call lc next, a = .exec t → (s.thr t).pc.head ≠ some (call, .log lc, next)
  noStore : ∀ t, a ≠ .store t
  loc : ∀ u, (s'.thr u).log = (s.thr u).log
  size : s'.log.logSz = s.log.logSz
  events : s'.log.events = s.log.events
  /-- Only `flush` may stop the program. -/
  log : s'.log = s.log ∨ ∃ t i, a = .flush t ∧ (s.thr t).pc = .flushing i ∧ s' = flushRound s t i

theorem Quiet.flush {t i : ℕ} (hpc : (s.thr t).pc = .flushing i) :
    Quiet s (.flush t) (flushRound s t i) := by
  obtain ⟨pc, file, aborted, heq⟩ := flushRound_eq s t i
  have hloc : ∀ u, ((flushRound s t i).thr u).log = (s.thr u).log := by
    intro u
    rw [heq]
    exact State.setPc_log_self s t u pc
  have hlog : (flushRound s t i).log.logSz = s.log.logSz ∧ (flushRound s t i).log.events = s.log.events := by
    rw [heq]
    exact ⟨rfl, rfl⟩
  exact ⟨(by intro _ _ _ _ h; cases h), (by intro _ h; cases h), hloc, hlog.1, hlog.2, Or.inr ⟨t, i, rfl, hpc, rfl⟩⟩

/-- **The log** changes in a call of a logging function and in a store, of one thread. -/
theorem log_of_step (hstep : Stepped cfg s a s') :
    Quiet s a s' ∨
      (∃ t call lc next l, a = .exec t ∧ (s.thr t).log.pend = [] ∧
        (s.thr t).pc.head = some (call, .log lc, next) ∧
        Logger.exec cfg.log call.isOnStack call.inst t s.log (s.thr t).log lc = (s'.log, l) ∧
        (s'.thr t).log = l ∧ (∀ u, u ≠ t → s'.thr u = s.thr u) ∧
        ((s'.thr t).pc = next ∨ (s'.thr t).pc = next.took s.log.logSz)) ∨
      ∃ t l, a = .store t ∧ Logger.store s.log (s.thr t).log = some (s'.log, l) ∧ (s'.thr t).log = l ∧
        (∀ u, u ≠ t → s'.thr u = s.thr u) ∧ (s'.thr t).pc = (s.thr t).pc := by
  cases hstep with
  | @call t call hpc hall =>
    obtain ⟨started, pc, heq⟩ := enter_eq cfg s t call
    rw [heq]
    exact Or.inl ⟨(by intro _ _ _ _ h; cases h), (by intro _ h; cases h), fun u => State.setPc_log_self s t u pc,
      rfl, rfl, Or.inl rfl⟩
  | @skip t call c next hpend hpc =>
    refine Or.inl ⟨fun t' call' lc next' ht hpc' => ?_, (by intro _ h; cases h),
      fun u => State.setPc_log_self _ _ u _, rfl, rfl, Or.inl rfl⟩
    cases ht
    rw [hpc] at hpc'
    cases hpc'
  | @log t call lc next log l hpend hpc hlog hsz =>
    refine Or.inr (Or.inl ⟨t, call, lc, next, l, rfl, hpend, hpc, hlog, by simp [State.setLog], fun u hu => ?_,
      Or.inl (by simp)⟩)
    rw [State.setPc_of_ne _ _ hu]
    exact Function.update_of_ne hu _ _
  | @reserve t call lc next log l hpend hpc hlog hsz =>
    refine Or.inr (Or.inl ⟨t, call, lc, next, l, rfl, hpend, hpc, hlog, ?_, fun u hu => ?_,
      Or.inr (by simp)⟩)
    · simp [State.reserve, State.setLog]
    · rw [State.setPc_of_ne _ _ hu]
      exact Function.update_of_ne hu _ _
  | @store t log l hlog =>
    refine Or.inr (Or.inr ⟨t, l, rfl, hlog, by simp [State.setLog], fun u hu => ?_, by simp [State.setLog]⟩)
    exact Function.update_of_ne hu _ _
  | @signal t c call slot x p hpc hop =>
    refine Or.inl ⟨(by intro _ _ _ _ h; cases h), (by intro _ h; cases h), fun u => ?_, rfl, rfl, Or.inl rfl⟩
    rw [State.setPc_log_self]
    simp only [State.record, State.wake]
    split_ifs <;> rfl
  | @spawn t call slot x hpc hop hlt =>
    refine Or.inl ⟨(by intro _ _ _ _ h; cases h), (by intro _ h; cases h), fun u => ?_, rfl, rfl, Or.inl rfl⟩
    rw [State.setPc_log_self]
    simp only [State.record, State.spawn, State.setPc_log_self]
  | @flush t i hpc => exact Or.inl (.flush hpc)
  | _ =>
    exact Or.inl ⟨(by intro _ _ _ _ h; cases h), (by intro _ h; cases h),
      fun u => State.setPc_log_self _ _ u _, rfl, rfl, Or.inl rfl⟩

/-- What the place of a thread says about its part of the logger. A hook that was not run because of the
flags has left things as they were. -/
def LogPlace (started finished : Option ℕ) : Pc → LogLocal → Prop
  | .absent, l => l.pend = [] ∧ l.missing = none
  | .idle, l | .flushing _, l | .ended, l => l.pend = [] ∧ (l.missing = none ∨ finished ≠ none)
  | .before call todo _, l => hookRun call.isOnStack l.missing todo = some call.batch
  | .atCall call _, l | .waiting call _ _, l | .done call _ _, l =>
    l.pend = [] ∧ (l.missing = call.batch ∨ finished ≠ none ∨ started = none ∧ l.missing = none)
  | .after call _ todo _, l => hookRun call.isOnStack l.missing todo = some none

section Place

variable {st fi st' fi' : Option ℕ} {pc next : Pc} {l l' : LogLocal}

@[simp] theorem logPlace_took {n : ℕ} : LogPlace st fi (pc.took n) l ↔ LogPlace st fi pc l := by
  cases pc <;> rfl

/-- The flags. -/
theorem LogPlace.flags (h : LogPlace st fi pc l) (hfi : fi ≠ none → fi' ≠ none)
    (hst : st' = st ∨ pc.call = none) : LogPlace st' fi' pc l := by
  cases pc with
  | absent => exact h
  | idle => exact ⟨h.1, h.2.imp_right hfi⟩
  | flushing => exact ⟨h.1, h.2.imp_right hfi⟩
  | ended => exact ⟨h.1, h.2.imp_right hfi⟩
  | before => exact h
  | after => exact h
  | atCall call slot =>
    rcases hst with rfl | hst
    · exact ⟨h.1, h.2.imp_right (Or.imp_left hfi)⟩
    · cases hst
  | waiting call depth cause =>
    rcases hst with rfl | hst
    · exact ⟨h.1, h.2.imp_right (Or.imp_left hfi)⟩
    · cases hst
  | done call r lab =>
    rcases hst with rfl | hst
    · exact ⟨h.1, h.2.imp_right (Or.imp_left hfi)⟩
    · cases hst

/-- A call of the scheduler changes nothing for the logger. -/
theorem LogPlace.scs {call : Call} {c : ScsCall} (h : LogPlace st fi pc l)
    (hpc : pc.head = some (call, .scs c, next)) : LogPlace st fi next l := by
  cases pc with
  | before c' todo slot =>
    cases todo with
    | nil => cases hpc
    | cons stmt todo =>
      cases hpc
      exact h
  | after c' r todo lab =>
    cases todo with
    | nil => cases hpc
    | cons stmt todo =>
      cases hpc
      exact h
  | _ => cases hpc

/-- The next call of the logger keeps the discipline. -/
theorem LogPlace.log {call : Call} {lc : LogCall} (h : LogPlace st fi pc l)
    (hpc : pc.head = some (call, .log lc, next)) :
    ∃ r, batchStep call.isOnStack l.missing lc = some r ∧
      ∀ l' : LogLocal, l'.missing = r → LogPlace st fi next l' := by
  cases pc with
  | before c todo slot =>
    cases todo with
    | nil => cases hpc
    | cons stmt todo =>
      cases hpc
      obtain ⟨r, hr, h⟩ := Option.bind_eq_some_iff.mp h
      refine ⟨r, hr, fun l' hl' => ?_⟩
      simp only [LogPlace, hl']
      exact h
  | after c r todo lab =>
    cases todo with
    | nil => cases hpc
    | cons stmt todo =>
      cases hpc
      obtain ⟨r, hr, h⟩ := Option.bind_eq_some_iff.mp h
      refine ⟨r, hr, fun l' hl' => ?_⟩
      simp only [LogPlace, hl']
      exact h
  | _ => cases hpc

/-- After a store the place is still right. -/
theorem LogPlace.store (h : LogPlace st fi pc l) (hm : l'.missing = l.missing) (hpend : l.pend ≠ []) :
    LogPlace st fi pc l' := by
  cases pc with
  | before c todo slot =>
    simp only [LogPlace, hm]
    exact h
  | after c r todo lab =>
    simp only [LogPlace, hm]
    exact h
  | _ => exact absurd h.1 hpend

end Place

/-- What is left of the hook of a thread. -/
def Pc.todo : Pc → List Stmt
  | .before _ todo _ | .after _ _ todo _ => todo
  | _ => []

@[simp] theorem Pc.todo_took (pc : Pc) (n : ℕ) : (pc.took n).todo = pc.todo := by
  cases pc <;> rfl

/-- The log in every state of a run that no `assert` has stopped. -/
structure LogInv (s : State) : Prop where
  start : Start s
  nrThread : s.nrThread ≤ MAX_NR_THREAD
  slots : Slots s.log fun t => (s.thr t).log
  place : ∀ t, LogPlace s.started s.finished (s.thr t).pc (s.thr t).log
  /-- All that is logged, or will be by a hook that has begun, can be stored. -/
  todo : ∀ t, (s.thr t).pc.todo.all Stmt.storable = true
  storable : ∀ t, Storable (s.thr t).log
  stored : ∀ n e, s.log.events n = some e → n < MAX_NR_EVENTS ∧ e.Storable

theorem LogInv.init : LogInv init where
  start := .start
  nrThread := by decide
  slots := .init
  place := fun t => by
    by_cases ht : t = 0
    · subst ht
      exact ⟨rfl, Or.inl rfl⟩
    · simp only [Interface.init, if_neg ht]
      exact ⟨rfl, rfl⟩
  todo := fun t => by
    by_cases ht : t = 0
    · simp [Interface.init, ht, Pc.todo]
    · simp [Interface.init, ht, Pc.todo]
  storable := fun t => storable_initLocal
  stored := fun n e he => by cases he

/-- A thread that has not been created holds no slot. -/
theorem LogInv.lt_of_held (h : LogInv s) {t n : ℕ} (hn : n ∈ (s.thr t).log.held) : t < s.nrThread := by
  by_contra hge
  have hp := h.place t
  rw [h.start.absent t (not_lt.mp hge)] at hp
  rw [held_eq_empty hp.1 hp.2] at hn
  cases hn

/-- **The size of the log**: a slot beyond its end is in the batch of a thread. -/
theorem LogInv.logSz_le (h : LogInv s) : s.log.logSz ≤ MAX_NR_EVENTS + MAX_NR_THREAD * 3 := by
  have hsub : Finset.Ico MAX_NR_EVENTS s.log.logSz ⊆ (Finset.range MAX_NR_THREAD).biUnion fun t =>
      Finset.Ico (s.thr t).log.batchId ((s.thr t).log.batchId + min (s.thr t).log.batchSz 3) := by
    intro n hn
    obtain ⟨hlo, hhi⟩ := Finset.mem_Ico.mp hn
    obtain ⟨t, ht⟩ := (h.slots.part.cover n hhi).resolve_left fun ⟨e, he⟩ => by
      have := (h.stored n e he).1
      omega
    refine Finset.mem_biUnion.mpr ⟨t, Finset.mem_range.mpr ((h.lt_of_held ht).trans_le h.nrThread), ?_⟩
    rcases ht with hp | ⟨hin, hpos, hlt⟩
    · obtain ⟨x, hx, rfl⟩ := List.mem_map.mp hp
      have := ((h.storable t).pend x hx).1
      omega
    · have := (h.storable t).batch hin
      refine Finset.mem_Ico.mpr ⟨?_, ?_⟩
      · omega
      · omega
  have hcard := (Finset.card_le_card hsub).trans Finset.card_biUnion_le
  have hsum : ∑ t ∈ Finset.range MAX_NR_THREAD, (Finset.Ico (s.thr t).log.batchId
      ((s.thr t).log.batchId + min (s.thr t).log.batchSz 3)).card ≤ MAX_NR_THREAD * 3 := by
    refine (Finset.sum_le_card_nsmul _ _ 3 fun t _ => ?_).trans ?_
    · rw [Nat.card_Ico]
      omega
    · rw [Finset.card_range]
      exact le_rfl
  rw [Nat.card_Ico] at hcard
  omega

theorem LogInv.logSz_lt (h : LogInv s) : s.log.logSz < MAX_NUMBER :=
  h.logSz_le.trans_lt (by decide)

theorem batch_eq_none {call : Call} (h : call.op ≠ .create) : call.batch = none := by
  obtain ⟨op, inst, st, sl⟩ := call
  cases op <;> first | rfl | exact absurd rfl h

/-- The place of the thread that takes a step, if it is no step of the logger. -/
theorem LogInv.own_place (h : LogInv s) (hstep : Stepped cfg s a s') (hq : Quiet s a s') :
    LogPlace s'.started s'.finished (s'.thr a.thread).pc (s.thr a.thread).log := by
  have hp := h.place a.thread
  cases hstep with
  | @call t call hpc hall =>
    simp only [Action.thread] at hp ⊢
    rw [hpc] at hp
    have hfin := enter_finished cfg s t call
    rcases enter_pc cfg s t call with ⟨hpc', -, hf⟩ | ⟨hpc', hoff⟩
    · rw [hpc']
      show hookRun call.isOnStack _ _ = _
      rw [hp.2.resolve_right (not_not.mpr hf)]
      exact call.hookRun_before cfg.log
    · rw [hpc']
      refine ⟨hp.1, Or.inr ?_⟩
      rw [hfin]
      by_cases hf : s.finished = none
      · exact Or.inr ⟨hoff.resolve_right (not_not.mpr hf), hp.2.resolve_right (not_not.mpr hf)⟩
      · exact Or.inl hf
  | @skip t call c next hpend hpc =>
    simp only [Action.thread, State.setPc_self] at hp ⊢
    exact hp.scs hpc
  | @log t call lc next log l hpend hpc hlog hsz => exact absurd hpc (hq.noLog t _ _ _ rfl)
  | @reserve t call lc next log l hpend hpc hlog hsz => exact absurd hpc (hq.noLog t _ _ _ rfl)
  | @store t log l hlog => exact absurd rfl (hq.noStore t)
  | @atCall t call slot hpend hpc =>
    simp only [Action.thread, State.setPc_self] at hp ⊢
    rw [hpc] at hp
    exact ⟨hpend, Or.inl (Option.some.inj hp)⟩
  | @idle t call r lab hpend hpc =>
    simp only [Action.thread, State.setPc_self] at hp ⊢
    rw [hpc] at hp
    exact ⟨hpend, Or.inl (Option.some.inj hp)⟩
  | @second t call r lab hpc =>
    have hcreate := h.start.create t call (by rw [hpc]; rfl)
    simp only [Action.thread, State.setPc_self] at hp ⊢
    rw [hpc] at hp
    by_cases hneed : s.needInstrument = true
    · rw [if_pos hneed]
      have hneed' := Bool.and_eq_true_iff.mp hneed
      have hst := Option.isSome_iff_ne_none.mp hneed'.1
      have hfi := Option.isNone_iff_eq_none.mp hneed'.2
      have hmiss : (s.thr t).log.missing = call.batch := by
        rcases hp.2 with hm | hf | ⟨hs, -⟩
        · exact hm
        · exact absurd hfi hf
        · exact absurd hs hst
      show hookRun call.isOnStack _ _ = _
      rw [hmiss]
      exact call.hookRun_after r
    · rw [if_neg hneed]
      refine ⟨hp.1, ?_⟩
      by_cases hf : s.finished = none
      · have hs : s.started = none := by
          by_contra hs
          exact hneed (by simp [State.needInstrument, hf, Option.isSome_iff_ne_none, hs])
        apply Or.inl
        rcases hp.2 with hm | hf' | ⟨-, hm⟩
        · rw [hm, batch_eq_none fun hop => hcreate hop hs]
        · exact absurd hf hf'
        · exact hm
      · exact Or.inr hf
  | @exit t hpc hc =>
    simp only [Action.thread, beforeExit, State.setPc_self] at hp ⊢
    rw [hpc] at hp
    have hset : ({ s.setFinished with hasCleanUp := true }.setPc t
        (if cfg.log.enable then .flushing 0 else .ended)).finished ≠ none := Option.some_ne_none _
    split_ifs with hen
    · exact ⟨hp.1, Or.inr (by rw [if_pos hen] at hset; exact hset)⟩
    · exact ⟨hp.1, Or.inr (by rw [if_neg hen] at hset; exact hset)⟩
  | @flush t i hpc =>
    simp only [Action.thread] at hp ⊢
    rw [hpc] at hp
    have hfin : (flushRound s t i).finished = s.finished := by
      obtain ⟨pc, file, aborted, heq⟩ := flushRound_eq s t i
      rw [heq]
      rfl
    rw [hfin]
    exact flushRound_place (P := fun pc => LogPlace _ _ pc _) hpc (fun _ => hp) hp
  | finish hpc | leave hpc =>
    simp only [Action.thread, State.setPc_self] at hp ⊢
    rw [hpc] at hp
    exact hp
  | plain hpc | spawn hpc | joined hpc | acquire hpc | release hpc | wait hpc | signal _ hpc
  | rwlock _ _ _ hpc | wakeUp hpc =>
    simp only [Action.thread, State.setPc_self] at hp ⊢
    rw [hpc] at hp
    exact hp

/-- What is left of a hook is left of the hook of a wrapper. -/
theorem own_todo (hstep : Stepped cfg s a s') (h : (s.thr a.thread).pc.todo.all Stmt.storable = true) :
    (s'.thr a.thread).pc.todo.all Stmt.storable = true := by
  have hhead : ∀ {t : ℕ} {call : Call} {stmt : Stmt} {next : Pc},
      (s.thr t).pc.todo.all Stmt.storable = true → (s.thr t).pc.head = some (call, stmt, next) →
        next.todo.all Stmt.storable = true := by
    intro t call stmt next h hpc
    cases hp : (s.thr t).pc with
    | before c todo slot =>
      rw [hp] at h hpc
      cases todo with
      | nil => cases hpc
      | cons stmt' todo =>
        cases hpc
        exact (Bool.and_eq_true_iff.mp h).2
    | after c r todo lab =>
      rw [hp] at h hpc
      cases todo with
      | nil => cases hpc
      | cons stmt' todo =>
        cases hpc
        exact (Bool.and_eq_true_iff.mp h).2
    | _ =>
      rw [hp] at hpc
      cases hpc
  cases hstep with
  | @call t call hpc hall =>
    simp only [Action.thread]
    rcases enter_pc cfg s t call with ⟨hpc', -⟩ | ⟨hpc', -⟩
    · rw [hpc']
      exact call.storable_before cfg.log
    · rw [hpc']
      rfl
  | @skip t call c next hpend hpc =>
    simp only [Action.thread, State.setPc_self] at h ⊢
    exact hhead h hpc
  | @log t call lc next log l hpend hpc hlog hsz =>
    simp only [Action.thread, State.setPc_self] at h ⊢
    exact hhead h hpc
  | @reserve t call lc next log l hpend hpc hlog hsz =>
    simp only [Action.thread, State.setPc_self, Pc.todo_took] at h ⊢
    exact hhead h hpc
  | @store t log l hlog => simpa [Action.thread, State.setLog] using h
  | @second t call r lab hpc =>
    simp only [Action.thread, State.setPc_self]
    split_ifs
    · exact call.storable_after r
    · rfl
  | @exit t hpc hc =>
    simp only [Action.thread, beforeExit, State.setPc_self]
    split_ifs <;> rfl
  | @flush t i hpc =>
    simp only [Action.thread]
    exact flushRound_place (P := fun pc => pc.todo.all Stmt.storable = true) hpc (fun _ => rfl) rfl
  | _ =>
    simp only [Action.thread, State.setPc_self]
    rfl

/-- The head of a storable hook. -/
theorem storable_of_head {pc next : Pc} {call : Call} {stmt : Stmt} (h : pc.todo.all Stmt.storable = true)
    (hpc : pc.head = some (call, stmt, next)) : stmt.storable = true := by
  cases pc with
  | before c todo slot =>
    cases todo with
    | nil => cases hpc
    | cons stmt' todo =>
      cases hpc
      exact (Bool.and_eq_true_iff.mp h).1
  | after c r todo lab =>
    cases todo with
    | nil => cases hpc
    | cons stmt' todo =>
      cases hpc
      exact (Bool.and_eq_true_iff.mp h).1
  | _ => cases hpc

/-- A step that is none of the logger. -/
theorem LogInv.quiet (h : LogInv s) (hstep : Stepped cfg s a s') (hq : Quiet s a s') : LogInv s' := by
  refine ⟨h.start.step hstep, nrThread_le hstep h.nrThread, ?_, fun t => ?_, fun t => ?_, fun t => ?_, ?_⟩
  · obtain ⟨part, stamp, ok⟩ := h.slots.congr hq.loc
    refine ⟨?_, ?_, ok⟩
    · rw [hq.size, hq.events]
      exact part
    · rw [hq.events]
      exact stamp
  · rw [hq.loc]
    by_cases ht : t = a.thread
    · subst ht
      exact h.own_place hstep hq
    · have hfi : s.finished ≠ none → s'.finished ≠ none := finished_mono hstep
      have hp := h.place t
      rcases thr_of_ne hstep ht with heq | ⟨hc, -, -, heq⟩ | ⟨call, depth, i, hw, heq⟩
      · rw [heq]
        exact hp.flags hfi ((h.start.started_of_ne hstep ht).imp_right fun hab => by rw [hab]; rfl)
      · rw [heq]
        rw [h.start.absent t hc.ge] at hp
        exact ⟨hp.1, Or.inl hp.2⟩
      · rw [heq]
        have hs : s'.started = s.started := (h.start.started_of_ne hstep ht).resolve_right (by simp [hw])
        rw [hw] at hp
        exact @LogPlace.flags _ _ _ _ (.waiting call depth (some i)) _ hp hfi (Or.inl hs)
  · by_cases ht : t = a.thread
    · subst ht
      exact own_todo hstep (h.todo _)
    · rcases thr_of_ne hstep ht with heq | ⟨-, -, -, heq⟩ | ⟨call, depth, i, -, heq⟩
      · rw [heq]
        exact h.todo t
      · rw [heq]
        rfl
      · rw [heq]
        rfl
  · rw [hq.loc]
    exact h.storable t
  · rw [hq.events]
    exact h.stored

/-- Other threads, when only the thread that takes the step changes. -/
theorem LogInv.other (h : LogInv s) (hstep : Stepped cfg s a s') {t : ℕ} (ht : t ≠ a.thread)
    (heq : s'.thr t = s.thr t) : LogPlace s'.started s'.finished (s'.thr t).pc (s'.thr t).log ∧
      (s'.thr t).pc.todo.all Stmt.storable = true ∧ Storable (s'.thr t).log := by
  rw [heq]
  exact ⟨(h.place t).flags (finished_mono hstep)
    ((h.start.started_of_ne hstep ht).imp_right fun hab => by rw [hab]; rfl), h.todo t, h.storable t⟩

/-- A store of a thread. -/
theorem LogInv.store {t : ℕ} (h : LogInv s) (hstep : Stepped cfg s (.store t) s')
    (hst : Logger.store s.log (s.thr t).log = some (s'.log, (s'.thr t).log))
    (hother : ∀ u, u ≠ t → s'.thr u = s.thr u) (hpc : (s'.thr t).pc = (s.thr t).pc) : LogInv s' := by
  obtain ⟨hslots, hmiss, -⟩ := h.slots.store (fun u => (s'.thr u).log) hst fun u hu => by rw [hother u hu]
  have hflags : s'.started = s.started :=
    (started_of_step hstep).resolve_right (by
      rintro ⟨_, _, _, _, ha, -⟩
      cases ha)
  obtain ⟨n, e, pend, hp, hev, hl'⟩ := store_eq hst
  refine ⟨h.start.step hstep, nrThread_le hstep h.nrThread, hslots, fun u => ?_, fun u => ?_, fun u => ?_,
    fun m e' he' => ?_⟩
  · by_cases hu : u = t
    · subst hu
      rw [hpc]
      exact ((h.place u).store hmiss (by simp [hp])).flags (finished_mono hstep) (Or.inl hflags)
    · exact (h.other hstep hu (hother u hu)).1
  · by_cases hu : u = t
    · subst hu
      exact own_todo hstep (h.todo _)
    · exact (h.other hstep hu (hother u hu)).2.1
  · by_cases hu : u = t
    · subst hu
      rw [hl']
      exact ⟨(h.storable u).batch, fun x hx => (h.storable u).pend x (hp ▸ List.mem_cons_of_mem _ hx)⟩
    · exact (h.other hstep hu (hother u hu)).2.2
  · rw [hev] at he'
    by_cases hm : m = n
    · subst hm
      obtain rfl : e = e' := by simpa using he'
      exact (h.storable t).pend (m, e) (by simp [hp])
    · exact h.stored m e' (by simpa [Function.update_of_ne hm] using he')

/-- What a call of a logging function does. -/
theorem LogInv.exec {t : ℕ} {call : Call} {lc : LogCall} {next : Pc} {log : LogState} {l : LogLocal}
    (h : LogInv s) (hen : cfg.log.enable = true) (hpend : (s.thr t).log.pend = [])
    (hpc : (s.thr t).pc.head = some (call, .log lc, next))
    (hex : Logger.exec cfg.log call.isOnStack call.inst t s.log (s.thr t).log lc = (log, l)) :
    (∃ r k, Took s.log (s.thr t).log r k log l ∧ LogPlace s.started s.finished next l) ∨ Full log := by
  obtain ⟨r, hr, hplace⟩ := (h.place t).log hpc
  have hspec := exec_spec call.inst t hen (h.slots.ok t) hpend hr (h.slots.part.held_lt t) h.logSz_lt
  rw [hex] at hspec
  exact hspec.imp_left fun ⟨k, htook⟩ => ⟨r, k, htook, hplace l htook.missing⟩

/-- **Every step** keeps the log in order; the only `assert` that can fail, but for those of `flush`, is that
the log is not full. -/
theorem LogInv.step (h : LogInv s) (hen : cfg.log.enable = true) (hstep : Stepped cfg s a s') :
    LogInv s' ∨ Full s'.log := by
  rcases log_of_step hstep with hq | ⟨t, call, lc, next, l, rfl, hpend, hpc, hex, hl, hother, hnext⟩ |
    ⟨t, l, rfl, hst, hl, hother, hpc⟩
  · exact Or.inl (h.quiet hstep hq)
  · refine (h.exec hen hpend hpc hex).imp_left fun ⟨r, k, htook, hplace⟩ => ?_
    have hstor := (h.storable t).exec cfg.log call.isOnStack call.inst t s.log hpend
      (storable_of_head (h.todo t) hpc)
    rw [hex] at hstor
    subst hl
    have hflags : s'.started = s.started :=
      (started_of_step hstep).resolve_right (by
      rintro ⟨_, _, _, _, ha, -⟩
      cases ha)
    have hown : LogPlace s'.started s'.finished next (s'.thr t).log :=
      hplace.flags (finished_mono hstep) (Or.inl hflags)
    have hev : s'.log.events = s.log.events := by rw [htook.log]; rfl
    refine ⟨h.start.step hstep, nrThread_le hstep h.nrThread,
      h.slots.took htook fun u hu => by rw [hother u hu], fun u => ?_, fun u => ?_, fun u => ?_, hev ▸ h.stored⟩
    · by_cases hu : u = t
      · subst hu
        rcases hnext with heq | heq
        · rw [heq]
          exact hown
        · rw [heq]
          exact logPlace_took.mpr hown
      · exact (h.other hstep hu (hother u hu)).1
    · by_cases hu : u = t
      · subst hu
        exact own_todo hstep (h.todo _)
      · exact (h.other hstep hu (hother u hu)).2.1
    · by_cases hu : u = t
      · subst hu
        exact hstor
      · exact (h.other hstep hu (hother u hu)).2.2
  · subst hl
    exact Or.inl (h.store hstep hst hother hpc)

/-- The `assert`s that may fail. -/
theorem LogInv.aborted_of_step (h : LogInv s) (hen : cfg.log.enable = true) (hstep : Stepped cfg s a s') :
    s'.log.aborted = s.log.aborted ∨ Full s'.log ∨
      ∃ t i, a = .flush t ∧ (s.thr t).pc = .flushing i ∧ s' = flushRound s t i := by
  rcases log_of_step hstep with hq | ⟨t, call, lc, next, l, rfl, hpend, hpc, hex, -⟩ | ⟨t, l, rfl, hst, -⟩
  · exact hq.log.imp (congrArg _) Or.inr
  · rcases h.exec hen hpend hpc hex with ⟨r, k, htook, -⟩ | hfull
    · exact Or.inl (by rw [htook.log]; rfl)
    · exact Or.inr (Or.inl hfull)
  · exact Or.inl (store_aborted hst)

/-- **No event is overwritten.** -/
theorem LogInv.events_mono (h : LogInv s) (hstep : Stepped cfg s a s') {n : ℕ} {e : Event}
    (he : s.log.events n = some e) : s'.log.events n = some e := by
  rcases log_of_step hstep with hq | ⟨t, call, lc, next, l, rfl, -, -, hex, -⟩ |
    ⟨t, l, rfl, hst, hl, hother, -⟩
  · rw [hq.events]
    exact he
  · have hev := exec_events cfg.log call.isOnStack call.inst t s.log (s.thr t).log lc
    rw [hex] at hev
    rw [show s'.log.events = s.log.events from hev]
    exact he
  · subst hl
    exact (h.slots.store (fun u => (s'.thr u).log) hst fun u hu => by rw [hother u hu]).2.2 n e he

/-- The size never shrinks. -/
theorem logSz_mono (hstep : Stepped cfg s a s') : s.log.logSz ≤ s'.log.logSz := by
  rcases log_of_step hstep with hq | ⟨t, call, lc, next, l, rfl, -, -, hex, -⟩ | ⟨t, l, rfl, hst, -⟩
  · exact hq.size.ge
  · have hle := logSz_le_exec cfg.log call.isOnStack call.inst t s.log (s.thr t).log lc
    rw [hex] at hle
    exact hle
  · exact (store_logSz hst).ge

/-- **The log in every reachable state** that no `assert` has stopped. -/
theorem logInv_of_reachable {P : State → Action → Prop} (hen : cfg.log.enable = true)
    (h : ReachableBy cfg P s) (hab : s.log.aborted = none) : LogInv s := by
  refine h.invariant (I := fun s => s.log.aborted = none → LogInv s) (fun _ => .init) ?_ hab
  intro s a s' ih _ hs hab'
  obtain ⟨hab, hstep⟩ := step_cases hs
  refine ((ih hab).step hen hstep).resolve_right fun hfull => ?_
  rw [hfull.1] at hab'
  cases hab'

end Schnauzer.Interface
