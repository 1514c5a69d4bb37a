import Mathlib.Data.List.Perm.Basic
import Schnauzer.Detect.Main
import Schnauzer.Detect.TotalRaces
import Schnauzer.Scripts.FileNames

/-!
# A series of runs

`RaceDetector.detectTotalRace` runs the detector on the traces of a benchmark, and `RaceFileManager.loadTotalRaceFile`
loads what it has written. Each trace has its process.

## What is proved

* `any_readKeys_iff` — the keys of a race file are the pairs of instructions that race in the trace.
* `detectTotalRace_counts` — **the count of a series**: in how many traces two instructions race.
-/

namespace Schnauzer

open InstRaceTable Scripts

/-- Two instructions race in a trace. -/
def RaceOn (file : List Event) (k : Scripts.InstRace) : Prop :=
  ∃ n m a e f, FileRace file n m a ∧ file[n]? = some e ∧ file[m]? = some f ∧ (scriptKey e f).eq k

/-- What differs from one process of the detector to the next. -/
structure Chance where
  order : Traversal
  junk : ℕ → ℕ → UInt8
  noStat : ℕ

/-- The loop of `RaceDetector.detectTotalRace` over the traces that `list_dir` yields; `exists?` tells which files there
were before, and `files` are the race files that there are since. -/
def detectTotalRace (chance : Str → Chance) (rounds : ℕ) (open? : Str → Option TraceFile) (exists? : Str → Bool)
    (sched : Option Str) : List Str → List (Str × Str) → List (Str × Str)
  | [], files => files
  | traceFile :: rest, files =>
    let raceFile := replace ".trace".toList ".race".toList 0 traceFile
    if !isLoaded sched traceFile then detectTotalRace chance rounds open? exists? sched rest files
    else if exists? raceFile || files.any (·.1 = raceFile) then detectTotalRace chance rounds open? exists? sched rest files
    else match Detect.main (chance traceFile).order (chance traceFile).junk rounds (chance traceFile).noStat open?
        [traceFile] with
      | .reported raceName text _ =>
        detectTotalRace chance rounds open? exists? sched rest (files.filter (·.1 ≠ raceName) ++ [(raceName, text)])
      | _ => detectTotalRace chance rounds open? exists? sched rest files

variable {file : TraceFile} {g : DepGraph} {ra : RaceAnalyze} {pairs : List (ℕ × ℕ)} {ps : List (Event × Event)}
  {table : InstRaceTable} {k : Scripts.InstRace} {open? : Str → Option TraceFile} {rounds : ℕ}

/-- A key is in the table when a pair of events has it. -/
theorem any_readKeys (htable : empty.addRaces ps = .ok table) :
    table.readKeys.any (·.eq k) ↔ ∃ q ∈ ps, (readKey (keyOf q)).eq k := by
  have hsame : ∀ {p q : InstRacePair}, p.ids = q.ids → ((readKey p).eq k ↔ (readKey q).eq k) := by
    intro p q hids
    refine Scripts.InstRace.eq_trans_iff (readKey_eq_iff.mpr ?_)
    exact congrArg (fun ids : ℕ × ℕ => s(ids.1, ids.2)) hids
  rw [List.any_eq_true]
  constructor
  · rintro ⟨l, hl, hlk⟩
    obtain ⟨x, hx, rfl⟩ := List.mem_map.mp hl
    obtain ⟨r, hr⟩ := List.exists_mem_of_ne_nil _ (table.filled x hx)
    obtain ⟨q, hq, hids, -⟩ := (mem_races htable hx).mp hr
    exact ⟨q, hq, (hsame hids).mpr hlk⟩
  · rintro ⟨q, hq, hk⟩
    obtain ⟨x, hx, hids, -⟩ := exists_entry htable hq
    exact ⟨readKey x.1, List.mem_map.mpr ⟨x, hx, rfl⟩, (hsame hids).mpr hk⟩

/-- **The keys of the race file** are the pairs of instructions that race. -/
theorem any_readKeys_iff (hload : loadTrace file.events = .ok g) (hcall : ∀ e ∈ file.events, e.opTy ≠ .call)
    (hra : RaceAnalyze.analyze g = .ok ra) (hps : List.Forall₂ g.Points pairs ps)
    (hpairs : ∀ p, p ∈ pairs ↔ p ∈ ra.getTotalRaceEventPair) (htable : empty.addRaces ps = .ok table) :
    table.readKeys.any (·.eq k) ↔ RaceOn file.events k := by
  have hiff := exists_pair_iff (k := k) hload hps hpairs (P := fun _ => True)
  simp only [and_true] at hiff
  rw [any_readKeys htable, hiff, RaceOn]
  simp only [reportedAt_iff hload hcall hra]

/-! ### The name of the race file, as the script makes it -/

/-- What is behind the last occurrence is skipped. -/
theorem replace_skip (old new : Str) {s : Str} {skip : ℕ} (h : s.length ≤ skip) : replace old new skip s = [] := by
  induction s generalizing skip with
  | nil => rfl
  | cons c s ih =>
    obtain ⟨skip, rfl⟩ : ∃ n, skip = n + 1 := ⟨skip - 1, by rw [List.length_cons] at h; omega⟩
    rw [replace]
    exact ih (Nat.le_of_succ_le_succ h)

/-- **A text that ends with what is replaced**, and has it nowhere else; its first letter is in it once. -/
theorem replace_append {c : Char} {t base : Str} (new : Str) (hc : c ∉ t) (hbase : ¬ (c :: t) <:+: base) :
    replace (c :: t) new 0 (base ++ c :: t) = base ++ new := by
  induction base with
  | nil => rw [List.nil_append, List.nil_append, replace, if_pos (List.prefix_rfl), replace_skip _ _ (by simp), List.append_nil]
  | cons x base ih =>
    have hno : ¬ (c :: t) <+: x :: (base ++ c :: t) := by
      intro hpre
      by_cases hlen : (c :: t).length ≤ (x :: base).length
      · refine hbase (List.IsPrefix.isInfix ?_)
        exact List.prefix_of_prefix_length_le hpre (List.prefix_append (x :: base) (c :: t)) hlen
      · -- the first letter would be inside
        have ht : t <+: base ++ c :: t := (List.cons_prefix_cons.mp hpre).2
        refine hc ?_
        have hget := ht.getElem (i := base.length) (by rw [List.length_cons, List.length_cons] at hlen; omega)
        rw [List.getElem_append_right (le_refl _)] at hget
        simp only [Nat.sub_self, List.getElem_cons_zero] at hget
        exact hget ▸ List.getElem_mem _
    rw [List.cons_append, replace, if_neg hno, ih fun h => hbase (h.trans (List.suffix_cons x base).isInfix)]
    rfl

/-! ### A series -/

/-- A series of traces that can be analysed, each without a race file. -/
structure Series (runs : List (Str × TraceFile)) (open? : Str → Option TraceFile) (exists? : Str → Bool) (rounds : ℕ) :
    Prop where
  names : (runs.map Prod.fst).Nodup
  plain : ∀ r ∈ runs, ¬ ".trace".toList <:+: r.1
  opens : ∀ r ∈ runs, open? (r.1 ++ ".trace".toList) = some r.2
  fresh : ∀ r ∈ runs, exists? (r.1 ++ ".race".toList) = false
  rounds : ∀ r ∈ runs, r.2.nrRecord ≤ rounds
  analysable : ∀ r ∈ runs, ∃ g graph ra, Analysable r.2 g graph ra

/-- **The files of a series.** -/
theorem detectTotalRace_writes (chance : Str → Chance) {exists? : Str → Bool} (sched : Option Str)
    {runs : List (Str × TraceFile)} (h : Series runs open? exists? rounds) (files : List (Str × Str))
    (hfiles : ∀ f ∈ files, ∀ r ∈ runs, f.1 ≠ r.1 ++ ".race".toList) : ∃ files' written,
      detectTotalRace chance rounds open? exists? sched (runs.map fun r => r.1 ++ ".trace".toList) files = files ++ files' ∧
        Written files' written ∧ List.Forall₂ (fun (r : Str × TraceFile) x => x.1 = r.1 ++ ".race".toList ∧
          ∀ k, x.2.readKeys.any (·.eq k) ↔ RaceOn r.2.events k)
          (runs.filter fun r => isLoaded sched (r.1 ++ ".trace".toList)) written := by
  induction runs generalizing files with
  | nil => exact ⟨[], [], (List.append_nil _).symm, .nil, .nil⟩
  | cons r runs ih =>
    obtain ⟨hnames, hplain, hopen, hfresh, hrounds, hanalysable⟩ := h
    rw [List.map_cons, List.nodup_cons] at hnames
    rw [List.forall_mem_cons] at hplain hopen hfresh hrounds hanalysable
    have hrest : Series runs open? exists? rounds :=
      ⟨hnames.2, hplain.2, hopen.2, hfresh.2, hrounds.2, hanalysable.2⟩
    have hname : replace ".trace".toList ".race".toList 0 (r.1 ++ ".trace".toList) = r.1 ++ ".race".toList :=
      replace_append _ (by decide) hplain.1
    have hno : files.any (·.1 = r.1 ++ ".race".toList) = false :=
      List.any_eq_false.mpr fun f hf => by simpa using hfiles f hf r List.mem_cons_self
    rw [List.map_cons, detectTotalRace]
    by_cases hload : isLoaded sched (r.1 ++ ".trace".toList)
    · obtain ⟨g, graph, ra, hr⟩ := hanalysable.1
      obtain ⟨text, found, ps, hmain, htext, hps, htable⟩ :=
        @main_writes r.2 g graph ra rounds (chance (r.1 ++ ".trace".toList)).noStat open? r.1
          (chance (r.1 ++ ".trace".toList)).order (chance (r.1 ++ ".trace".toList)).junk hopen.1 hrounds.1 hr
      have hkeep : files.filter (·.1 ≠ r.1 ++ ".race".toList) = files :=
        List.filter_eq_self.mpr fun f hf => decide_eq_true (hfiles f hf r List.mem_cons_self)
      obtain ⟨files', written, heq, hwritten, hkeys⟩ := ih hrest (files ++ [(r.1 ++ ".race".toList, text)]) fun f hf q hq => by
        rcases List.mem_append.mp hf with hf | hf
        · exact hfiles f hf q (List.mem_cons_of_mem _ hq)
        · cases List.mem_singleton.mp hf
          intro heq
          exact hnames.1 (List.append_cancel_right heq ▸ List.mem_map_of_mem hq)
      refine ⟨(r.1 ++ ".race".toList, text) :: files', (r.1 ++ ".race".toList, found.raceTable) :: written, ?_,
        .cons ⟨rfl, htext⟩ hwritten, ?_⟩
      · simp only [hload, Bool.not_true, Bool.false_eq_true, if_false, hname, hfresh.1, hno, Bool.or_false, hmain, hkeep, heq]
        rw [List.append_assoc, List.singleton_append]
      · rw [List.filter_cons_of_pos (by exact hload)]
        exact .cons ⟨rfl, fun k => any_readKeys_iff hr.load hr.calls hr.races hps (fun p => Traversal.mem_elems) htable⟩ hkeys
    · obtain ⟨files', written, heq, hwritten, hkeys⟩ := ih hrest files fun f hf q hq =>
        hfiles f hf q (List.mem_cons_of_mem _ hq)
      refine ⟨files', written, ?_, hwritten, ?_⟩
      · simpa only [Bool.eq_false_of_not_eq_true hload, Bool.not_false, if_true] using heq
      · rwa [List.filter_cons_of_neg (by exact hload)]

/-- The files are loaded in any order. -/
theorem written_perm {files files' : List (Str × Str)} {written : List (Str × InstRaceTable)} (h : Written files written)
    (hperm : files'.Perm files) : ∃ written', Written files' written' ∧ written'.Perm written := by
  obtain ⟨written', hwritten, hp⟩ := List.perm_comp_forall₂ hperm h
  exact ⟨written', hwritten, hp⟩

open Classical in
/-- **The count of a series.** When the detector has run on traces that can be analysed, and the script loads what it has
written, in any order, two instructions are counted in as many files as there are traces that they race in. -/
theorem detectTotalRace_counts (chance : Str → Chance) {exists? : Str → Bool} (sched : Option Str)
    {runs : List (Str × TraceFile)} (h : Series runs open? exists? rounds) {files : List (Str × Str)}
    (hfiles : files.Perm
      (detectTotalRace chance rounds open? exists? sched (runs.map fun r => r.1 ++ ".trace".toList) [])) :
    ∃ m, RaceFileManager.new.loadTotalRaceFile files = some m ∧ ∀ k, nrRace m.totInstRace k =
      (runs.filter fun r => isLoaded sched (r.1 ++ ".trace".toList)).countP fun r => RaceOn r.2.events k := by
  obtain ⟨files', written, heq, hwritten, hkeys⟩ := detectTotalRace_writes chance sched h [] (by rintro f ⟨⟩)
  rw [heq, List.nil_append] at hfiles
  obtain ⟨written', hwritten', hperm⟩ := written_perm hwritten hfiles
  refine ⟨_, loadTotalRaceFile_eq hwritten', fun k => ?_⟩
  rw [nrRace_loaded rfl, hperm.countP_eq]
  clear hperm hwritten' hwritten hfiles heq
  generalize runs.filter (fun r => isLoaded sched (r.1 ++ ".trace".toList)) = detected at hkeys ⊢
  induction hkeys with
  | nil => rfl
  | @cons r x _ _ hrx _ ih =>
    rw [List.countP_cons, List.countP_cons, ih]
    have hx := hrx.2 k
    simp [RaceFileManager.new, hx]

open Classical in
theorem detectTotalRace_counts_overlapFile : ∃ (file : TraceFile) (m : RaceFileManager), file.events = overlapFile ∧
    RaceFileManager.new.loadTotalRaceFile (detectTotalRace (fun _ => ⟨.byPlace, fun _ _ => 0, 0⟩) 2 (fun _ => some file)
      (fun _ => false) none ["a.trace".toList] []) = some m ∧ ∀ k, nrRace m.totInstRace k =
        ([("a".toList, file)].filter fun r => isLoaded none (r.1 ++ ".trace".toList)).countP fun r => RaceOn r.2.events k := by
  obtain ⟨file, hevents, hlen⟩ := overlapFile_stored
  have hseries : Series [("a".toList, file)] (fun _ => some file) (fun _ => false) 2 := by
    refine ⟨by simp, ?_, ?_, ?_, ?_, ?_⟩
    all_goals
      intro r hr
      cases List.mem_singleton.mp hr
    · show ¬ ".trace".toList <:+: "a".toList
      decide
    · rfl
    · rfl
    · rw [TraceFile.nrRecord, hlen]
      decide
    · exact analysable_overlapFile hevents hlen
  exact ⟨file, _, hevents, (detectTotalRace_counts _ none hseries (.refl _)).choose_spec⟩

end Schnauzer
