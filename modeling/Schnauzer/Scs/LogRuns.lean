import Schnauzer.Scs.HookLog
import Schnauzer.Scs.Machine

/-!
# The log of a run

## What is proved

* `logSlots` — in every reachable state with room in the log no `assert` of the logger has failed,
  each slot below the size is either filled, with the event of that timestamp, or reserved by exactly
  one thread that is in an operation, no step overwrites a filled slot, and the slots of a
  batch or of a pair are consecutive.
-/

namespace Schnauzer

open Machine Runs Logger

variable {cfg : Config} {s s' : State} {a : Action}

/-- What the place of a thread says about its part of the logger. -/
def LogPlace : Pc → LogLocal → Prop
  | .idle, l => l.pend = [] ∧ l.missing = none
  | .before call todo, l => hookRun call.isOnStack l.missing todo = some call.batch
  | .inside call, l => l.pend = [] ∧ l.missing = call.batch
  | .after call todo, l => hookRun call.isOnStack l.missing todo = some none

/-- A call of the scheduler changes nothing for the logger. -/
theorem LogPlace.scs {pc next : Pc} {call : Call} {c : ScsCall} {l : LogLocal} (h : LogPlace pc l)
    (hpc : pc.head = some (call, .scs c, next)) : LogPlace next l := by
  cases pc with
  | idle => cases hpc
  | inside => cases hpc
  | before c' todo =>
    cases todo with
    | nil => cases hpc
    | cons stmt todo =>
      cases hpc
      exact h
  | after c' todo =>
    cases todo with
    | nil => cases hpc
    | cons stmt todo =>
      cases hpc
      exact h

/-- The next call of the logger keeps the discipline. -/
theorem LogPlace.log {pc next : Pc} {call : Call} {lc : LogCall} {l : LogLocal} (h : LogPlace pc l)
    (hpc : pc.head = some (call, .log lc, next)) :
    ∃ r, batchStep call.isOnStack l.missing lc = some r ∧
      ∀ l' : LogLocal, l'.missing = r → LogPlace next l' := by
  cases pc with
  | idle => cases hpc
  | inside => cases hpc
  | before c todo =>
    cases todo with
    | nil => cases hpc
    | cons stmt todo =>
      cases hpc
      obtain ⟨r, hr, h⟩ := Option.bind_eq_some_iff.mp h
      refine ⟨r, hr, fun l' hl' => ?_⟩
      simp only [LogPlace, hl']
      exact h
  | after c todo =>
    cases todo with
    | nil => cases hpc
    | cons stmt todo =>
      cases hpc
      obtain ⟨r, hr, h⟩ := Option.bind_eq_some_iff.mp h
      refine ⟨r, hr, fun l' hl' => ?_⟩
      simp only [LogPlace, hl']
      exact h

/-- After a store the place is still right. -/
theorem LogPlace.store {pc : Pc} {l l' : LogLocal} (h : LogPlace pc l) (hm : l'.missing = l.missing)
    (hpend : l.pend ≠ []) : LogPlace pc l' := by
  cases pc with
  | idle => exact absurd h.1 hpend
  | inside => exact absurd h.1 hpend
  | before c todo =>
    simp only [LogPlace, hm]
    exact h
  | after c todo =>
    simp only [LogPlace, hm]
    exact h

/-- What holds in every reachable state with room in the log. -/
structure LogInv (s : State) : Prop where
  aborted : s.log.aborted = none
  slots : Slots s.log fun t => (s.thr t).log
  place : ∀ t, LogPlace (s.thr t).pc (s.thr t).log

theorem LogInv.start (money : ℕ → ℕ) : LogInv (init money) where
  aborted := rfl
  slots := .init
  place := fun _ => ⟨rfl, rfl⟩

/-- A step that changes the place of a thread only. -/
theorem LogInv.move {t : ℕ} {th : Thread} {sched : Sched} {passes : ℕ → ℕ} (h : LogInv s)
    (hlog : th.log = (s.thr t).log) (hplace : LogPlace th.pc th.log) :
    LogInv { setThr s t th with sched, passes } := by
  have hthr : ∀ u, ((setThr s t th).thr u).log = (s.thr u).log := by
    intro u
    by_cases hu : u = t
    · subst hu
      simp [setThr, hlog]
    · simp [setThr, Function.update_of_ne hu]
  refine ⟨h.aborted, h.slots.congr hthr, fun u => ?_⟩
  by_cases hu : u = t
  · subst hu
    simpa [setThr] using hplace
  · simpa [setThr, Function.update_of_ne hu] using h.place u

/-- **One step** keeps the log in order, if there is room, and overwrites nothing. -/
theorem LogInv.step (hen : cfg.log.enable = true) (h : LogInv s) (hstep : Stepped cfg s a s')
    (hsz : s'.log.logSz ≤ MAX_NR_EVENTS) :
    LogInv s' ∧ ∀ n e, s.log.events n = some e → s'.log.events n = some e := by
  have keep : ∀ n e, s.log.events n = some e → s.log.events n = some e := fun _ _ he => he
  cases hstep with
  | @call t call hpc ht =>
    refine ⟨h.move rfl ?_, keep⟩
    have hp := h.place t
    rw [hpc] at hp
    simp only [LogPlace, hp.2]
    exact call.hookRun_before cfg.log
  | @block t call c next hpc hc hw hm => exact ⟨h.move rfl (h.place t), keep⟩
  | @enter t call next hpc hg => exact ⟨h.move rfl ((h.place t).scs hpc), keep⟩
  | @pay t call c next hpc hc hg => exact ⟨h.move rfl ((h.place t).scs hpc), keep⟩
  | @skip t call c next hpc hc => exact ⟨h.move rfl ((h.place t).scs hpc), keep⟩
  | @leave t call next hpc => exact ⟨h.move rfl ((h.place t).scs hpc), keep⟩
  | @log t call lc next log l hpc hpend hlog =>
    obtain ⟨r, hr, hnext⟩ := (h.place t).log hpc
    have hspec := took_of_room call.inst t hen (h.slots.ok t) hpend hr
      (h.slots.part.held_lt t) (by rw [hlog]; exact hsz)
    rw [hlog] at hspec
    obtain ⟨k, htook⟩ := hspec
    have hl : ((setThr s t { s.thr t with pc := next, log := l }).thr t).log = l := by simp [setThr]
    refine ⟨⟨?_, h.slots.took (w := t) (k := k) (r := r) ?_ fun u hu => ?_, fun u => ?_⟩, fun n e he => ?_⟩
    · have heq : log = fetchAdd k s.log := htook.log
      subst heq
      exact h.aborted
    · dsimp only
      rw [hl]
      exact htook
    · simp [setThr, Function.update_of_ne hu]
    · by_cases hu : u = t
      · subst hu
        simpa [setThr] using hnext l htook.missing
      · simpa [setThr, Function.update_of_ne hu] using h.place u
    · have heq : log = fetchAdd k s.log := htook.log
      subst heq
      exact he
  | @store t log l hlog =>
    have hl : ((setThr s t { s.thr t with log := l }).thr t).log = l := by simp [setThr]
    have hpend : (s.thr t).log.pend ≠ [] := by
      intro hnil
      simp [Logger.store, hnil] at hlog
    obtain ⟨hslots, hmiss, hkeep⟩ := h.slots.store (w := t)
      (fun u => ((setThr s t { s.thr t with log := l }).thr u).log)
      (by dsimp only; rw [hl]; exact hlog) fun u hu => by simp [setThr, Function.update_of_ne hu]
    refine ⟨⟨?_, hslots, fun u => ?_⟩, hkeep⟩
    · exact (store_aborted hlog).trans h.aborted
    by_cases hu : u = t
    · subst hu
      dsimp only at hmiss
      rw [hl] at hmiss
      simpa [setThr] using (h.place u).store hmiss hpend
    · simpa [setThr, Function.update_of_ne hu] using h.place u
  | @inside t call hpc hpend =>
    refine ⟨h.move rfl ⟨hpend, ?_⟩, keep⟩
    have hp := h.place t
    rw [hpc] at hp
    exact Option.some.inj hp
  | @idle t call hpc hpend =>
    refine ⟨h.move rfl ⟨hpend, ?_⟩, keep⟩
    have hp := h.place t
    rw [hpc] at hp
    exact Option.some.inj hp
  | @real t r call hpc =>
    refine ⟨h.move rfl ?_, keep⟩
    have hp := h.place t
    rw [hpc] at hp
    simp only [LogPlace, hp.2]
    exact call.hookRun_after r
  | supervise hsched => exact ⟨⟨h.aborted, h.slots, h.place⟩, keep⟩

theorem logSz_le_of_step (hstep : Stepped cfg s a s') : s.log.logSz ≤ s'.log.logSz := by
  cases hstep with
  | @log t call lc next log l hpc hpend hlog =>
    have hle := logSz_le_exec cfg.log call.isOnStack call.inst t s.log (s.thr t).log lc
    rw [hlog] at hle
    exact hle
  | @store t log l hlog => exact (store_logSz hlog).ge
  | _ => exact le_rfl

theorem logInv_of_reachable (hen : cfg.log.enable = true) (h : Reachable cfg s)
    (hsz : s.log.logSz ≤ MAX_NR_EVENTS) : LogInv s := by
  obtain ⟨money, -, hrun⟩ := h
  refine hrun.invariant (I := fun s => s.log.logSz ≤ MAX_NR_EVENTS → LogInv s) (fun _ => .start money) ?_ hsz
  intro s a s' ih _ hs hsz'
  obtain ⟨-, hstep⟩ := step_cases hs
  exact ((ih ((logSz_le_of_step hstep).trans hsz')).step hen hstep hsz').1

/-- A thread that holds a slot is in an operation. -/
theorem LogInv.not_idle {t n : ℕ} (h : LogInv s) (hn : n ∈ (s.thr t).log.held) : (s.thr t).pc ≠ .idle := by
  intro hidle
  have hp := h.place t
  rw [hidle] at hp
  rw [held_eq_empty hp.1 hp.2] at hn
  cases hn

/-- The slots of the log, at one state. -/
structure LogSlots (cfg : Config) (s : State) : Prop where
  /-- No `assert` of the logger has failed. -/
  aborted : s.log.aborted = none
  /-- Each slot is filled with its event, or reserved by exactly one thread, in an operation. -/
  slot : ∀ n < s.log.logSz, Xor (∃ e, s.log.events n = some e ∧ e.timestamp = n)
    (∃! t, n ∈ (s.thr t).log.held ∧ (s.thr t).pc ≠ .idle)
  /-- No other slots are used. -/
  used : ∀ n, (∃ e, s.log.events n = some e) ∨ (∃ t, n ∈ (s.thr t).log.held) → n < s.log.logSz
  /-- No step overwrites an event, if there is room for it. -/
  kept : ∀ a s', step cfg s a = some s' → s'.log.logSz ≤ MAX_NR_EVENTS →
    ∀ n e, s.log.events n = some e → s'.log.events n = some e
  /-- The slots of a batch or a pair are consecutive, and the stores go to them. -/
  drawn : ∀ t, (∃ n k, (s.thr t).log.drawn = List.range' n k) ∧
    ∀ x ∈ (s.thr t).log.pend, x.1 ∈ (s.thr t).log.drawn
  /-- With no operation open, `flush` finds each event. -/
  flush : (∀ t, (s.thr t).pc = .idle) → ∀ n < s.log.logSz, ∃ e, s.log.events n = some e ∧ e.timestamp = n

/-- **The slots of the log** in every reachable state. -/
theorem logSlots (hen : cfg.log.enable = true) (h : Reachable cfg s)
    (hsz : s.log.logSz ≤ MAX_NR_EVENTS) : LogSlots cfg s := by
  have hinv := logInv_of_reachable hen h hsz
  have hpart := hinv.slots.part
  have hevent : ∀ n e, s.log.events n = some e → ∃ e, s.log.events n = some e ∧ e.timestamp = n :=
    fun n e he => ⟨e, he, hinv.slots.stamp n e he⟩
  refine ⟨hinv.aborted, fun n hn => ?_, fun n hn => ?_, fun a s' hs hsz' => ?_, fun t => ?_,
    fun hidle n hn => ?_⟩
  · by_cases hf : ∃ e, s.log.events n = some e
    · obtain ⟨e, he⟩ := hf
      refine Or.inl ⟨hevent n e he, ?_⟩
      rintro ⟨t, ⟨ht, -⟩, -⟩
      exact hpart.not_filled t n ht ⟨e, he⟩
    · obtain ⟨t, ht⟩ := (hpart.cover n hn).resolve_left hf
      refine Or.inr ⟨⟨t, ⟨ht, hinv.not_idle ht⟩, fun u hu => hpart.unique u t n hu.1 ht⟩, ?_⟩
      rintro ⟨e, he, -⟩
      exact hf ⟨e, he⟩
  · rcases hn with hn | ⟨t, ht⟩
    · exact hpart.filled_lt n hn
    · exact hpart.held_lt t n ht
  · exact (hinv.step hen (step_cases hs).2 hsz').2
  · exact ⟨(hinv.slots.ok t).drawn, (hinv.slots.ok t).pend_drawn⟩
  · have hempty : ∀ t, (s.thr t).log.held = ∅ := by
      intro t
      by_contra hne
      obtain ⟨m, hm⟩ := Set.nonempty_iff_ne_empty.mpr hne
      exact hinv.not_idle hm (hidle t)
    obtain ⟨e, he⟩ := hpart.filled_of_idle hempty hn
    exact hevent n e he

/-- One thread creates another and a third has stored. -/
theorem logSlots_twoUnits : ∃ s : State, s.log.logSz = 2 ∧ LogSlots twoUnits s := by
  have hrun : ((exec (restrict (step twoUnits) fun _ _ => True) (init fun _ => 2)
      [.call 0 (plainCall .create), .exec 0, .exec 0, .ret 0, .call 1 (plainCall (.store 5)), .exec 1,
        .store 1]).map fun s => s.log.logSz) = some 2 := by
    decide +kernel
  obtain ⟨s, hs, hsz⟩ := Option.map_eq_some_iff.mp hrun
  exact ⟨s, hsz, logSlots rfl ⟨_, isInitMoney_twoUnits, Reach.of_exec hs⟩ (by rw [hsz]; decide)⟩

end Schnauzer
