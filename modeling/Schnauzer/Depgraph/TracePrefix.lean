import Schnauzer.Depgraph.FileRaces

/-!
# Truncated trace files

A program that crashes saves the events up to then (`segfault_handler`), and a file may be cut. `loadTrace` goes over the
whole file before the analysis starts: which addresses are shared, and which events stay, depends on all that follows.
The report does not.

## What is proved

* `exists_analyze_take` — the first events of a trace that is analysed are analysed.
* `reportedAt_take` — **their report** is that part of the report for the whole trace that is about them.
-/

namespace Schnauzer

open CausalOrder RaceAnalyze

variable {file : List Event} {g : DepGraph} {ra : RaceAnalyze} {k n m : ℕ} {a : Addr}

/-- The loop goes over the first events of a file as it does over the file. -/
theorem Loader.loop_take {ld ld' : Loader} (h : Loader.loop file k ld = .ok ld') (n : ℕ) :
    ∃ ld₁, Loader.loop (file.take n) k ld = .ok ld₁ := by
  induction file generalizing k ld n with
  | nil => exact ⟨ld, by rw [List.take_nil]; rfl⟩
  | cons e file ih =>
    cases n with
    | zero => exact ⟨ld, rfl⟩
    | succ n =>
      simp only [Loader.loop] at h
      split_ifs at h with hts
      obtain ⟨ld₁, h₁, h⟩ := bind_eq_ok.mp h
      obtain ⟨ld₂, h₂⟩ := ih h n
      refine ⟨ld₂, ?_⟩
      rw [List.take_succ_cons, Loader.loop, if_neg hts]
      exact bind_eq_ok.mpr ⟨ld₁, h₁, h₂⟩

theorem loadTrace_take (h : loadTrace file = .ok g) (k : ℕ) : ∃ g', loadTrace (file.take k) = .ok g' := by
  obtain ⟨ld, hld, -⟩ := bind_eq_ok.mp h
  obtain ⟨ld', hld'⟩ := Loader.loop_take hld k
  exact ⟨ld'.finish, bind_eq_ok.mpr ⟨ld', hld', rfl⟩⟩

/-- The expanded events of the first events of a file are the first ones. -/
theorem expandTrace_take (file : List Event) (k : ℕ) :
    expandTrace file = expandTrace (file.take k) ++ expandTrace (file.drop k) := by
  conv_lhs => rw [← List.take_append_drop k file]
  exact List.flatMap_append

/-- An address that the first events share is shared. -/
theorem SharedIn.mono {evts evts' : List Event} (h : SharedIn evts a) (hsub : evts ⊆ evts') : SharedIn evts' a := by
  obtain ⟨⟨e, he, f, hf, hrest⟩, s, hs, hst⟩ := h
  exact ⟨⟨e, hsub he, f, hsub hf, hrest⟩, s, hsub hs, hst⟩

/-- **The first events of a trace** that the analysis accepts are accepted. -/
theorem exists_analyze_take (hload : loadTrace file = .ok g) (hra : analyze g = .ok ra) (k : ℕ) :
    ∃ g' ra', loadTrace (file.take k) = .ok g' ∧ analyze g' = .ok ra' := by
  obtain ⟨g', hload'⟩ := loadTrace_take hload k
  obtain ⟨htot, hshared, hsync⟩ := loadTrace_eq_ok hload
  obtain ⟨htot', hshared', hsync'⟩ := loadTrace_eq_ok hload'
  have hsub : expandTrace (file.take k) ⊆ expandTrace file := by
    rw [expandTrace_take file k]
    exact List.subset_append_left _ _
  obtain ⟨ra', hra'⟩ : ∃ ra', analyze g' = .ok ra' := by
    apply analyzeLoop_ok_iff.mpr
    intro e he
    rw [htot', List.mem_filter] at he
    -- what stays of the first events stays of all
    have hmem : e ∈ g.totEvents := by
      rw [htot, List.mem_filter]
      refine ⟨hsub he.1, ?_⟩
      cases hacc : e.isAccessEvent with
      | false => exact keeps_of_not_access hacc
      | true =>
        rw [keeps_of_access hacc, hshared]
        exact ((hshared' _).mp ((keeps_of_access hacc).mp he.2)).mono hsub
    obtain ⟨htid, hkind⟩ := analyzeLoop_ok_iff.mp ⟨ra, hra⟩ e hmem
    refine ⟨htid, hkind.imp_right fun h => h.imp_right fun ⟨hacc, hlen, hno⟩ => ⟨hacc, hlen, fun hvar => hno ?_⟩⟩
    -- and what the first events synchronise on, they all do
    have hvar := (hsync' _).mp (of_decide_eq_true hvar)
    obtain ⟨s, hs, hrest⟩ := hvar
    exact decide_eq_true ((hsync _).mpr ⟨s, hsub hs, hrest⟩)
  exact ⟨g', ra', hload', hra'⟩

/-- The races of the first events of a file are those of the file that are about them. -/
theorem fileRace_take : FileRace (file.take k) n m a ↔ m < k ∧ FileRace file n m a := by
  have hget : ∀ {i : ℕ} {e : Event}, (file.take k)[i]? = some e ↔ i < k ∧ file[i]? = some e := by
    intro i e
    rw [List.getElem?_take]
    split_ifs with hi
    · exact ⟨fun h => ⟨hi, h⟩, fun h => h.2⟩
    · exact ⟨fun h => h.elim, fun h => absurd h.1 hi⟩
  have hbefore : ∀ {e : Event}, (file.take k)[m]? = some e →
      (HappensBefore file n m ↔ HappensBefore (file.take k) n m) := by
    intro e he
    conv_lhs => rw [← List.take_append_drop k file]
    exact beforeIn_append (List.getElem?_eq_some_iff.mp he).1
  constructor
  · rintro ⟨hlt, ⟨e, f, he, hf, hrest⟩, hun, hlast⟩
    obtain ⟨hm, hf'⟩ := hget.mp hf
    refine ⟨hm, hlt, ⟨e, f, (hget.mp he).2, hf', hrest⟩, fun hb => hun ((hbefore hf).mp hb), ?_⟩
    intro l w hnl hlm hw
    exact hlast l w hnl hlm (hget.mpr ⟨hlm.trans hm, hw⟩)
  · rintro ⟨hm, hlt, ⟨e, f, he, hf, hrest⟩, hun, hlast⟩
    have hf' := hget.mpr ⟨hm, hf⟩
    refine ⟨hlt, ⟨e, f, hget.mpr ⟨hlt.trans hm, he⟩, hf', hrest⟩, fun hb => hun ((hbefore hf').mpr hb), ?_⟩
    intro l w hnl hlm hw
    exact hlast l w hnl hlm (hget.mp hw).2

/-- **A truncated trace** is analysed if the whole is, and its report is the part of the whole report that is about the
events that are left. -/
theorem reportedAt_take (hload : loadTrace file = .ok g) (hcall : ∀ e ∈ file, e.opTy ≠ .call)
    (hra : analyze g = .ok ra) (k : ℕ) : ∃ g' ra', loadTrace (file.take k) = .ok g' ∧ analyze g' = .ok ra' ∧
      ∀ n m a, g'.ReportedAt ra' n m a ↔ m < k ∧ g.ReportedAt ra n m a := by
  obtain ⟨g', ra', hload', hra'⟩ := exists_analyze_take hload hra k
  have hcall' : ∀ e ∈ file.take k, e.opTy ≠ .call := fun e he => hcall e (List.mem_of_mem_take he)
  refine ⟨g', ra', hload', hra', fun n m a => ?_⟩
  rw [reportedAt_iff hload' hcall' hra', reportedAt_iff hload hcall hra]
  exact fileRace_take

theorem reportedAt_take_overlapFile : ∃ g ra g' ra', loadTrace overlapFile = .ok g ∧ analyze g = .ok ra ∧
    loadTrace (overlapFile.take 1) = .ok g' ∧ analyze g' = .ok ra' ∧
      ∀ n m a, g'.ReportedAt ra' n m a ↔ m < 1 ∧ g.ReportedAt ra n m a := by
  obtain ⟨g, ra, hg, hra⟩ := overlapFile_analyzed
  obtain ⟨g', ra', hrest⟩ := reportedAt_take hg (by decide) hra 1
  exact ⟨g, ra, g', ra', hg, hra, hrest⟩

end Schnauzer
