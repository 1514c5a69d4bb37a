import Schnauzer.Core.SyncInTrace

/-!
# No order is missing

The detector's clocks order what the operations of the program order, except for those on reader-writer locks: their
wrappers call hooks that `ScScheduler` leaves empty. So nothing is missing in the runs in which no thread learns of an
access from a reader-writer lock alone.

## What is proved

* `Ordered.step` — what is ordered at all is ordered without the reader-writer locks.
* `no_missing_order` — **accesses that are ordered are ordered by the clocks**, and not reported.
* `rwlock_not_ordered` — two accesses under a reader-writer lock are reported.
-/

namespace Schnauzer

/-- The nodes of a reader-writer lock from which a call takes over knowledge when it gets the lock. -/
def Op.takesRwlock : Op → List Interface.RealNode
  | .rwlockRdlock l | .rwlockTryrdlock l => [.written l]
  | .rwlockWrlock l | .rwlockTrywrlock l => [.written l, .read l]
  | _ => []

namespace Interface

open CausalOrder Logger Relation Runs

variable {cfg : Config} {s s' : State} {a : Action}

/-- A thread that gets a reader-writer lock knows already of the accesses that the lock could tell it of. -/
def NoRwlockNews (s : State) : Action → Prop
  | .real t x => x ≠ .busy → ∀ call slot, (s.thr t).pc = .atCall call slot → ∀ y ∈ call.op.takesRwlock,
      ∀ i, s.AccessAt i → i ∈ SyncKnownTo s.hist y → i ∈ SyncKnownTo s.hist (.thr t)
  | _ => True

/-! ### Labels of reader-writer locks -/

/-- A step that adds a label in front of an operation is the operation. -/
theorem real_of_step (hs : step cfg s a = some s') {call : Call} {slot : Option ℕ}
    (hpc : (s.thr a.thread).pc = .atCall call slot) (hne : s'.hist ≠ s.hist) :
    ∃ x, a = .real a.thread x ∧ real s a.thread call slot x = some s' := by
  have hab := (step_cases hs).1
  unfold step at hs
  rw [if_neg (not_not.mpr hab)] at hs
  cases a with
  | real t x =>
    simp only [Action.thread] at hpc
    simp only [hpc] at hs
    exact ⟨x, rfl, hs⟩
  | store t =>
    obtain ⟨⟨log, l⟩, -, rfl⟩ := Option.map_eq_some_iff.mp hs
    exact absurd rfl hne
  | exec t =>
    simp only [Action.thread] at hpc
    simp [hpc, Pc.head] at hs
  | _ =>
    simp only [Action.thread] at hpc
    simp [hpc] at hs

/-- An operation that takes over knowledge from a reader-writer lock. -/
theorem takesRwlock_of_real {t : ℕ} {call : Call} {slot : Option ℕ} {x : Outcome} {act : Act} {y : RealNode}
    (h : real s t call slot x = some s') (hop : call.op.isRwlock) (hhist : s'.hist = s.hist ++ [⟨t, act⟩])
    (hy : y ∈ act.takes) : x ≠ .busy ∧ y ∈ call.op.takesRwlock := by
  have hsame : s'.hist ≠ s.hist := fun h => not_logged_of_same h hhist
  have hlabel : ∀ {act' : Act}, s'.hist = s.hist ++ [⟨t, act'⟩] → act' = act := fun h =>
    congrArg Label.act (List.singleton_inj.mp (List.append_cancel_left (h.symm.trans hhist)))
  obtain ⟨op, inst, st, sl⟩ := call
  cases op with
  | rwlockRdlock l | rwlockTryrdlock l =>
    simp only [real] at h
    split at h
    · obtain rfl := Option.some.inj h
      exact absurd rfl hsame
    next hbusy =>
      split_ifs at h
      obtain rfl := Option.some.inj h
      obtain rfl := hlabel rfl
      exact ⟨hbusy, hy⟩
  | rwlockWrlock l | rwlockTrywrlock l =>
    simp only [real] at h
    split at h
    · obtain rfl := Option.some.inj h
      exact absurd rfl hsame
    next hbusy =>
      split_ifs at h
      obtain rfl := Option.some.inj h
      obtain rfl := hlabel rfl
      exact ⟨hbusy, hy⟩
  | rwlockUnlock l =>
    simp only [real] at h
    split_ifs at h
    · obtain rfl := Option.some.inj h
      obtain rfl := hlabel rfl
      cases hy
    · obtain rfl := Option.some.inj h
      obtain rfl := hlabel rfl
      cases hy
  | _ => cases hop

/-- **Knowledge from a reader-writer lock** is taken over by the operations on them. -/
theorem takesRwlock_of_step (hs : step cfg s a = some s') {t : ℕ} {act : Act} {y : RealNode}
    (hhist : s'.hist = s.hist ++ [⟨t, act⟩]) (hy : y ∈ act.takes) (hrw : y.isRwlock) :
    ∃ x call slot, a = .real t x ∧ x ≠ .busy ∧ (s.thr t).pc = .atCall call slot ∧ y ∈ call.op.takesRwlock := by
  have hrec := recorded_of_step (step_cases hs).2
  obtain rfl : t = a.thread := by
    rcases hrec.at (at_length hhist) with hat | ⟨-, ht, -⟩
    · exact absurd hat.lt (lt_irrefl _)
    · exact ht
  have hop : ∃ call slot, (s.thr a.thread).pc = .atCall call slot ∧ call.op.isRwlock := by
    cases act with
    | rdlock | wrlock =>
      obtain ⟨slot, -, -, call, slot', hpc, hop, -⟩ := hrec.performed hhist rfl
      exact ⟨call, slot', hpc, hop⟩
    | joined | acquire =>
      obtain rfl := List.mem_singleton.mp hy
      cases hrw
    | awake c m cause =>
      cases cause with
      | none =>
        obtain rfl := List.mem_singleton.mp hy
        cases hrw
      | some i =>
        rcases List.mem_cons.mp hy with rfl | hy
        · cases hrw
        · obtain rfl := List.mem_singleton.mp hy
          cases hrw
    | _ => cases hy
  obtain ⟨call, slot, hpc, hop⟩ := hop
  obtain ⟨x, ha, hreal⟩ := real_of_step hs hpc fun h => not_logged_of_same h hhist
  obtain ⟨hbusy, hy⟩ := takesRwlock_of_real hreal hop hhist hy
  exact ⟨x, call, slot, ha, hbusy, hpc, hy⟩

/-! ### The order without the reader-writer locks -/

/-- What is ordered after an access is ordered without the reader-writer locks. -/
structure Ordered (s : State) : Prop where
  known : ∀ x i, s.AccessAt i → i ∈ KnownTo s.hist x → i ∈ SyncKnownTo s.hist x
  before : ∀ i j, s.AccessAt i → RealBefore s.hist i j → SyncBefore s.hist i j

theorem Ordered.init : Ordered init where
  known := fun x i h => by
    obtain ⟨t, lc, f, hat, -⟩ := h
    cases hat
  before := fun i j h => by
    obtain ⟨t, lc, f, hat, -⟩ := h
    cases hat

/-- What a new label reads. -/
theorem Ordered.read (h : Ordered s) (hno : NoRwlockNews s a) (hs : step cfg s a = some s') {t i : ℕ} {act : Act}
    (hhist : s'.hist = s.hist ++ [⟨t, act⟩]) (hi : s.AccessAt i)
    (hread : ∃ y ∈ (⟨t, act⟩ : Label).reads, i ∈ KnownTo s.hist y) :
    ∃ y ∈ (⟨t, act⟩ : Label).syncReads, i ∈ SyncKnownTo s.hist y := by
  obtain ⟨y, hy, hknown⟩ := hread
  replace hknown := h.known y i hi hknown
  cases hrw : y.isRwlock with
  | false => exact ⟨y, ⟨hy, hrw⟩, hknown⟩
  | true =>
    -- the thread knows of the access without the lock
    have hy : y ∈ act.takes := hy.resolve_left fun heq => by
      rw [heq] at hrw
      cases hrw
    obtain ⟨x, call, slot, rfl, hbusy, hpc, hy⟩ := takesRwlock_of_step hs hhist hy hrw
    exact ⟨.thr t, Label.thr_mem_syncReads _, hno hbusy call slot hpc y hy i hi hknown⟩

/-- **One step.** -/
theorem Ordered.step (h : Ordered s) (hno : NoRwlockNews s a) (hs : step cfg s a = some s') : Ordered s' := by
  have hrec := recorded_of_step (step_cases hs).2
  have hcases : s'.hist = s.hist ∨ ∃ t act, s'.hist = s.hist ++ [⟨t, act⟩] := by
    cases hrec with
    | same hhist => exact Or.inl hhist
    | log _ _ hhist => exact Or.inr ⟨_, _, hhist⟩
    | act _ _ _ hhist => exact Or.inr ⟨_, _, hhist⟩
  rcases hcases with hhist | ⟨t, act, hhist⟩
  · have hacc : ∀ {i}, s'.AccessAt i → s.AccessAt i := fun hi => by
      unfold State.AccessAt State.At at hi
      rw [hhist] at hi
      exact hi
    refine ⟨fun x i hi hknown => ?_, fun i j hi hb => ?_⟩
    · rw [hhist] at hknown ⊢
      exact h.known x i (hacc hi) hknown
    · rw [hhist] at hb ⊢
      exact h.before i j (hacc hi) hb
  have hread := fun i => h.read hno hs (i := i) hhist
  refine ⟨fun x i hi hknown => ?_, fun i j hi hb => ?_⟩
  · rw [hhist] at hknown ⊢
    rcases mem_knows_append.mp hknown with hknown | ⟨hx, rfl | hy⟩
    · exact Knows.append (h.known x i (hi.of_lt hrec (lt_of_known hknown)) hknown)
    · exact knows_length hx
    · have hlt : i < s.hist.length := by
        obtain ⟨y, -, hy⟩ := hy
        exact lt_of_known hy
      exact mem_knows_append.mpr (Or.inr ⟨hx, Or.inr (hread i (hi.of_lt hrec hlt) hy)⟩)
  · rw [hhist] at hb ⊢
    have hj := BeforeIn.lt_length hb
    rw [List.length_append, List.length_singleton] at hj
    rcases Nat.lt_succ_iff_lt_or_eq.mp hj with hj | rfl
    · have hb := (beforeIn_append hj).mp hb
      exact BeforeIn.append (h.before i j (hi.of_lt hrec ((Before.lt hb).trans hj)) hb)
    · exact beforeIn_length.mpr (hread i (hi.of_lt hrec (Before.lt hb)) (beforeIn_length.mp hb))

/-- The order in the runs in which reader-writer locks bring no news. -/
theorem ordered_of_reachable (h : ReachableBy cfg NoRwlockNews s) : Ordered s :=
  h.invariant .init fun _ _ _ hord hno hs => hord.step hno hs

/-! ### The clocks -/

/-- **No order is missing.** In every run in which no thread learns of an access from a reader-writer lock alone, the
clocks order the accesses of different threads that are ordered by what really synchronises, and none of them is
reported. -/
theorem no_missing_order (hen : cfg.log.enable = true) (h : ReachableBy cfg NoRwlockNews s) :
    ∀ g ra, loadTrace s.file = .ok g → RaceAnalyze.analyze g = .ok ra → ∀ i j x y, g.totEvents[i]? = some x →
      g.totEvents[j]? = some y → x.isAccessEvent → y.isAccessEvent → x.tid ≠ y.tid →
        RealBefore s.hist (s.place x.timestamp) (s.place y.timestamp) →
          g.ClocksOrder i j ∧ (i, j) ∉ ra.getTotalRaceEventPair ∧ (j, i) ∉ ra.getTotalRaceEventPair := by
  intro g ra hload hra i j x y hx hy hxa hya hne hreal
  obtain ⟨s₀, h₀, hinv, hfile, ⟨hcont, htick⟩, heq, hiff⟩ := exists_running
    (I := fun s => Contents s ∧ Tickets s) hen h ⟨.init, .init⟩
    fun s a s' hinv hi _ hstep hab => ⟨hi.1.step hinv hen hstep hab, hi.2.step hstep⟩
  rw [← heq] at hload
  obtain ⟨e, he, hea, -⟩ := source_of_access hload hx hxa
  obtain ⟨f, hf, hfa, -⟩ := source_of_access hload hy hya
  obtain ⟨hn, lc, k, hat, hlc⟩ := hinv.file_access hfile he hea
  obtain ⟨hn', -⟩ := hinv.file_access hfile hf hfa
  have hsync : SyncBefore s₀.hist (s₀.place x.timestamp) (s₀.place y.timestamp) :=
    (ordered_of_reachable h₀).before _ _ ⟨_, lc, k, hat, hlc⟩ ((hiff _ _ _ _ hn hn').mp hreal)
  have hclocks := (clocksOrder_iff_file hinv hfile hload hra hx hy hxa hya hne).mpr
    (happensBefore_of_syncBefore hinv hfile hcont htick he hea hf hfa hsync)
  have hb := (clocksOrder_iff_happensBefore hra hx hy hxa hya hne).mp hclocks
  exact ⟨hclocks, not_mem_pairs hra hb, not_mem_pairs_swap hra hb⟩

/-- The step is an operation on a reader-writer lock. -/
def State.atRwlock (s : State) : Action → Bool
  | .real t _ =>
    match (s.thr t).pc with
    | .atCall call _ => call.op.isRwlock
    | _ => false
  | _ => false

theorem noRwlockNews_of_not_atRwlock (h : s.atRwlock a = false) : NoRwlockNews s a := by
  cases a with
  | real t x =>
    intro _ call slot hpc y hy
    simp only [State.atRwlock, hpc] at h
    cases hop : call.op with
    | rwlockRdlock | rwlockWrlock | rwlockTryrdlock | rwlockTrywrlock =>
      rw [hop] at h
      cases h
    | _ =>
      rw [hop] at hy
      cases hy
  | _ => trivial

theorem no_missing_order_lockedFile : ∃ (s : State) (g : DepGraph) (ra : RaceAnalyze) (x y : Event),
    s.file = lockedFile ∧ loadTrace s.file = .ok g ∧ RaceAnalyze.analyze g = .ok ra ∧ g.totEvents[2]? = some x ∧
      g.totEvents[5]? = some y ∧ RealBefore s.hist (s.place x.timestamp) (s.place y.timestamp) ∧
        g.ClocksOrder 2 5 ∧ (2, 5) ∉ ra.getTotalRaceEventPair ∧ (5, 2) ∉ ra.getTotalRaceEventPair := by
  have hrun : ((exec (restrict (step traced) fun s act => s.atRwlock act = false) init lockedRun).map
      fun s => (s.file, s.hist, s.place 2, s.place 5)) = some (lockedFile, lockedHist, 4, 9) := by
    decide +kernel
  obtain ⟨s, hs, heq⟩ := Option.map_eq_some_iff.mp hrun
  obtain ⟨hfile, heq⟩ := Prod.mk.inj heq
  obtain ⟨hhist, heq⟩ := Prod.mk.inj heq
  obtain ⟨hplace, hplace'⟩ := Prod.mk.inj heq
  obtain ⟨g, ra, hload, hra⟩ := lockedFile_analyzed
  have htot := totEvents_lockedFile hload
  have hx : g.totEvents[2]? = some (.makeVarAccessEvent 0 2 0 .st 16) := by rw [htot]; rfl
  have hy : g.totEvents[5]? = some (.makeVarAccessEvent 0 5 1 .st 16) := by rw [htot]; rfl
  have hreal : RealBefore s.hist (s.place 2) (s.place 5) := by
    rw [hhist, hplace, hplace']
    have hunlock : RealBefore lockedHist 4 6 := realBefore_single (.thr 0) (by omega) rfl rfl (by decide) (by decide)
    have hlock : RealBefore lockedHist 6 7 := realBefore_single (.mutex 8) (by omega) rfl rfl (by decide) (by decide)
    exact (hunlock.trans hlock).trans (realBefore_single (.thr 1) (by omega) rfl rfl (by decide) (by decide))
  exact ⟨s, g, ra, _, _, hfile, hfile ▸ hload, hra, hx, hy, hreal,
    no_missing_order rfl ((Reach.of_exec hs).mono fun _ _ => noRwlockNews_of_not_atRwlock) g ra (hfile ▸ hload) hra
      2 5 _ _ hx hy rfl rfl (by decide) hreal⟩

/-- Thread 0 stores to byte 16, and thread 1 loads it. -/
def rwlockFile : List Event :=
  [.makeThreadEvent 0 0 0 .create 1, .makeVarAccessEvent 0 1 0 .st 16, .makeVarAccessEvent 0 2 1 .ld 16]

/-- They do so under the reader-writer lock at 40. -/
def rwlockHist : List Label :=
  [⟨0, .log (.startBatch 1) 0⟩, ⟨0, .spawn 1⟩, ⟨0, .wrlock 40⟩, ⟨0, .log (.logVarAccessEvent .st 16) 1⟩,
    ⟨0, .wrunlock 40⟩, ⟨1, .rdlock 40⟩, ⟨1, .log (.logVarAccessEvent .ld 16) 2⟩]

/-- **Accesses under a reader-writer lock** are not ordered by the clocks, and reported. -/
theorem rwlock_not_ordered : ∃ (s : State) (g : DepGraph) (ra : RaceAnalyze) (x y : Event), Reachable traced s ∧
    s.file = rwlockFile ∧ loadTrace s.file = .ok g ∧ RaceAnalyze.analyze g = .ok ra ∧ g.totEvents[1]? = some x ∧
      g.totEvents[2]? = some y ∧ x.isAccessEvent ∧ y.isAccessEvent ∧ x.tid ≠ y.tid ∧
        RealBefore s.hist (s.place x.timestamp) (s.place y.timestamp) ∧ ¬ g.ClocksOrder 1 2 ∧
          (1, 2) ∈ ra.getTotalRaceEventPair := by
  have hrun : ((exec (restrict (step traced) fun _ _ => True) init
      [.call 0 (plainCall .create), .exec 0, .exec 0, .ret 0, .real 0 .ok, .second 0, .exec 0, .exec 0,
        .store 0, .exec 0, .ret 0, .call 0 (plainCall (.rwlockWrlock 40)), .ret 0, .real 0 .ok, .second 0, .ret 0,
        .call 0 (plainCall (.store 16)), .exec 0, .store 0, .ret 0, .real 0 .ok, .second 0, .ret 0,
        .call 0 (plainCall (.rwlockUnlock 40)), .ret 0, .real 0 .ok, .second 0, .ret 0,
        .call 1 (plainCall (.rwlockRdlock 40)), .ret 1, .real 1 .ok, .second 1, .ret 1,
        .call 1 (plainCall (.load 16)), .exec 1, .store 1, .ret 1, .real 1 .ok, .second 1, .ret 1, .exit 0,
        .flush 0, .flush 0, .flush 0, .flush 0]).map fun s => (s.file, s.hist, s.place 1, s.place 2)) =
      some (rwlockFile, rwlockHist, 3, 6) := by
    decide +kernel
  obtain ⟨s, hs, heq⟩ := Option.map_eq_some_iff.mp hrun
  obtain ⟨hfile, heq⟩ := Prod.mk.inj heq
  obtain ⟨hhist, heq⟩ := Prod.mk.inj heq
  obtain ⟨hplace, hplace'⟩ := Prod.mk.inj heq
  obtain ⟨g, hload⟩ : ∃ g, loadTrace rwlockFile = .ok g := exists_loadTrace (by decide)
  have htot : (loadTrace rwlockFile).toOption.map (·.totEvents) = some rwlockFile := by decide +kernel
  rw [hload] at htot
  obtain htot : g.totEvents = rwlockFile := Option.some.inj htot
  obtain ⟨ra, hra⟩ := exists_analyze hload (by decide) (by decide) (by decide)
  have hx : g.totEvents[1]? = some (.makeVarAccessEvent 0 1 0 .st 16) := by rw [htot]; rfl
  have hy : g.totEvents[2]? = some (.makeVarAccessEvent 0 2 1 .ld 16) := by rw [htot]; rfl
  have hun : ¬ HappensBefore g.totEvents 1 2 := by
    rw [htot]
    intro hb
    obtain ⟨-, v, ⟨e, he, hv⟩, f, hf, hv'⟩ := Before.direct_of_succ hb
    cases he
    cases hf
    cases v with
    | thr t =>
      have ht : t = 0 := (Event.thr_mem_writes.mp hv).resolve_right fun h => by cases h.1
      have ht' : t = 1 := (Event.thr_mem_reads.mp hv').resolve_right fun h => by cases h.1
      omega
    | var b => exact absurd (Event.var_mem_writes.mp hv).1 (by decide)
  refine ⟨s, g, ra, _, _, Reach.of_exec hs, hfile, hfile ▸ hload, hra, hx, hy, rfl, rfl, by decide, ?_, fun hc => ?_, ?_⟩
  · show RealBefore s.hist (s.place 1) (s.place 2)
    rw [hplace, hplace', hhist]
    have hunlock : RealBefore rwlockHist 3 4 := realBefore_single (.thr 0) (by omega) rfl rfl (by decide) (by decide)
    have hlock : RealBefore rwlockHist 4 5 :=
      realBefore_single (.written 40) (by omega) rfl rfl (by decide) (by decide)
    exact (hunlock.trans hlock).trans (realBefore_single (.thr 1) (by omega) rfl rfl (by decide) (by decide))
  · exact hun ((clocksOrder_iff_happensBefore hra hx hy rfl rfl (by decide)).mp hc)
  · refine (mem_pairs hra).mpr ⟨16, ⟨by omega, ⟨_, _, hx, hy, rfl, rfl, rfl, rfl, Or.inl rfl⟩, hun⟩, ?_⟩
    intro l f hl hl'
    omega

end Interface

end Schnauzer
