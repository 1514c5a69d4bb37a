import Schnauzer.Detect.RaceTable
import Schnauzer.Scripts.Race

/-!
# The race file is read back

What `InstRaceTable::dumpFile` writes, `scripts/Race.py` reads: the header of a group is the key, the next line says how
many races follow, each on its line.

## What is proved

* `parse_text`, `parse_race` — a header and a race are read as they were written.
* `loadRuntimeRace_dump`, `loadRaceFile_dump` — the two readers on the text of a table.
* `raceFile_roundTrip` — a file is read to its end, as the table that was written.
-/

namespace Schnauzer

open Text

namespace InstRaceTable

/-- The key that is read for the key of a group. -/
def readKey (p : InstRacePair) : Scripts.InstRace :=
  .init (decimal p.firstInstId) [p.firstOp] (decimal p.secondInstId) [p.secondOp]

/-- The race that is read for a race. -/
def readRace (r : RuntimeRace) : Scripts.RuntimeRace where
  firstTid := decimal r.firstEvt.tid
  firstTs := decimal r.firstEvt.timestamp
  firstInstId := decimal r.firstEvt.instUniqueId
  secondTid := decimal r.secondEvt.tid
  secondTs := decimal r.secondEvt.timestamp
  secondInstId := decimal r.secondEvt.instUniqueId
  addr := decimal r.firstEvt.varAddr

variable {p q : InstRacePair} {r : RuntimeRace} {n : ℕ}

/-! ### One line -/

theorem not_digit_of_isOp {c : Char} (h : IsOp c) : c ≠ ':' ∧ c ≠ '\n' ∧ isSpace c = false := by
  rcases h with rfl | rfl <;> decide

/-- An id and a letter. -/
def opText (n : ℕ) (op : Char) : Scripts.Str := decimal n ++ [':', op]

theorem text_eq (p : InstRacePair) : p.text = opText p.firstInstId p.firstOp ++ ' ' :: opText p.secondInstId p.secondOp := by
  simp [InstRacePair.text, opText]

theorem isSpace_opText {op c : Char} (hop : IsOp op) (h : c ∈ opText n op) : isSpace c = false := by
  simp only [opText, List.mem_append, List.mem_cons, List.not_mem_nil, or_false] at h
  rcases h with h | rfl | rfl
  · exact isSpace_of_isDigit (isDigit_of_mem_decimal h)
  · decide
  · exact (not_digit_of_isOp hop).2.2

theorem splitOn_opText {op : Char} (hop : IsOp op) : (opText n op).splitOn ':' = [decimal n, [op]] := by
  have hlast : ':' ∉ [op] := fun h => (not_digit_of_isOp hop).1 (List.mem_singleton.mp h).symm
  rw [opText, List.splitOn_append_cons_self_of_not_mem (not_mem_decimal rfl), List.splitOn_eq_singleton hlast]

theorem opText_ne_nil {op : Char} : opText n op ≠ [] := by
  simp [opText]

/-- A line of two parts that begins and ends with a word. -/
theorem strip_parts {s t : Scripts.Str} (hs : ∀ c ∈ s, isSpace c = false) (ht : ∀ c ∈ t, isSpace c = false) (hsne : s ≠ [])
    (htne : t ≠ []) (mid : Scripts.Str) : strip ((s ++ mid ++ t) ++ ['\n']) = s ++ mid ++ t := by
  refine strip_line (fun c hc => hs c ?_) fun c hc => ht c ?_
  · rw [List.append_assoc, List.head?_append_of_ne_nil _ hsne] at hc
    exact List.mem_of_mem_head? hc
  · rw [List.getLast?_append_of_ne_nil _ htne] at hc
    exact List.mem_of_mem_getLast? hc

/-- **The header** of a group. -/
theorem parse_text : Scripts.InstRace.parse (p.text ++ ['\n']) = some (readKey p) := by
  have hfirst : ∀ c ∈ opText p.firstInstId p.firstOp, isSpace c = false := fun c hc => isSpace_opText p.firstIsOp hc
  have hsecond : ∀ c ∈ opText p.secondInstId p.secondOp, isSpace c = false := fun c hc =>
    isSpace_opText p.secondIsOp hc
  have hstrip : strip (p.text ++ ['\n']) = p.text := by
    have hparts := strip_parts hfirst hsecond opText_ne_nil opText_ne_nil [' ']
    have htext : opText p.firstInstId p.firstOp ++ [' '] ++ opText p.secondInstId p.secondOp = p.text := by
      simp [text_eq]
    rwa [htext] at hparts
  have hwords : words p.text = [opText p.firstInstId p.firstOp, opText p.secondInstId p.secondOp] := by
    rw [text_eq, words_append opText_ne_nil hfirst, words_word opText_ne_nil hsecond]
  rw [Scripts.InstRace.parse, hstrip, hwords]
  simp only [Scripts.unpack2, Option.bind_eq_bind, Option.bind_some, splitOn_opText p.firstIsOp,
    splitOn_opText p.secondIsOp]
  rfl

theorem isSpace_eventText {e : Event} {c : Char} (h : c ∈ RuntimeRace.eventText e) : isSpace c = false := by
  simp only [RuntimeRace.eventText, List.mem_append, List.mem_cons] at h
  rcases h with h | rfl | h | rfl | h
  · exact isSpace_of_isDigit (isDigit_of_mem_decimal h)
  · decide
  · exact isSpace_of_isDigit (isDigit_of_mem_decimal h)
  · decide
  · exact isSpace_of_isDigit (isDigit_of_mem_decimal h)

theorem eventText_ne_nil {e : Event} : RuntimeRace.eventText e ≠ [] := by
  simp [RuntimeRace.eventText]

theorem splitOn_eventText {e : Event} : (RuntimeRace.eventText e).splitOn ':' =
    [decimal e.tid, decimal e.timestamp, decimal e.instUniqueId] := by
  rw [RuntimeRace.eventText, List.splitOn_append_cons_self_of_not_mem (not_mem_decimal rfl),
    List.splitOn_append_cons_self_of_not_mem (not_mem_decimal rfl), List.splitOn_eq_singleton (not_mem_decimal rfl)]

/-- A word is its own strip. -/
theorem strip_word {s : Scripts.Str} (hs : ∀ c ∈ s, isSpace c = false) : strip s = s := by
  cases s with
  | nil => rfl
  | cons c s =>
    rw [strip, List.dropWhile_cons_of_neg (by simp [hs c List.mem_cons_self]), List.rdropWhile_eq_self_iff]
    intro hne
    rw [hs _ (List.getLast_mem hne)]
    decide

/-- **The line of a race.** -/
theorem parse_race : Scripts.RuntimeRace.parse (r.text ++ ['\n']) = some (readRace r) := by
  have hspace : ∀ e : Event, ∀ c ∈ RuntimeRace.eventText e, isSpace c = false := fun e c hc => isSpace_eventText hc
  have haddr : ∀ c ∈ decimal r.firstEvt.varAddr, isSpace c = false := fun c hc =>
    isSpace_of_isDigit (isDigit_of_mem_decimal hc)
  have hstrip : strip (r.text ++ ['\n']) = r.text := by
    have hparts := strip_parts (hspace r.firstEvt) haddr eventText_ne_nil decimal_ne_nil
      (' ' :: (RuntimeRace.eventText r.secondEvt ++ [' ']))
    simpa [RuntimeRace.text] using hparts
  have hwords : words r.text = [RuntimeRace.eventText r.firstEvt, RuntimeRace.eventText r.secondEvt,
      decimal r.firstEvt.varAddr] := by
    rw [RuntimeRace.text, words_append eventText_ne_nil (hspace _), words_append eventText_ne_nil (hspace _),
      words_word decimal_ne_nil haddr]
  rw [Scripts.RuntimeRace.parse, hstrip, hwords]
  simp only [List.getElem?_cons_zero, List.getElem?_cons_succ, Option.bind_eq_bind, Option.bind_some,
    strip_word (hspace _), splitOn_eventText, Scripts.unpack3]
  rfl

/-- **The number of races.** -/
theorem firstNumber_countText : firstNumber (countText n ++ ['\n']) = some (decimal n) := by
  have hs : ∀ c ∈ ['-', '-', '-', ' '], c.isDigit = false := by
    simp only [List.forall_mem_cons]
    exact ⟨rfl, rfl, rfl, rfl, fun c hc => absurd hc (List.not_mem_nil)⟩
  have ht : ∀ c ∈ [' ', '-', '-', '-', '\n'].head?, c.isDigit = false := by
    intro c hc
    obtain rfl := Option.mem_some.mp hc
    rfl
  have h := firstNumber_append (n := n) hs ht
  simpa [countText] using h

/-! ### The lines of a file -/

/-- The lines of one group. -/
def groupLines (x : InstRacePair × List RuntimeRace) : List Scripts.Str :=
  (x.1.text ++ ['\n']) :: (countText x.2.length ++ ['\n']) :: x.2.map fun r => r.text ++ ['\n']

theorem newline_of_isSpace {s : Scripts.Str} (hs : ∀ c ∈ s, isSpace c = false) : '\n' ∉ s := fun h =>
  absurd (hs _ h) (by decide)

theorem newline_text : '\n' ∉ p.text := by
  rw [text_eq, List.mem_append, List.mem_cons]
  rintro (h | h | h)
  · exact newline_of_isSpace (fun c hc => isSpace_opText p.firstIsOp hc) h
  · exact absurd h (by decide)
  · exact newline_of_isSpace (fun c hc => isSpace_opText p.secondIsOp hc) h

theorem newline_countText : '\n' ∉ countText n := by
  have hn : '\n' ∉ decimal n := not_mem_decimal rfl
  simp [countText, hn]

theorem newline_race : '\n' ∉ r.text := by
  have hevent : ∀ e, '\n' ∉ RuntimeRace.eventText e := fun e => newline_of_isSpace fun c hc => isSpace_eventText hc
  have haddr : '\n' ∉ decimal r.firstEvt.varAddr := not_mem_decimal rfl
  simp [RuntimeRace.text, hevent, haddr]

theorem format_eq_ok {s t : List Char} (h : Aux.format s = .ok t) : t = s := by
  unfold Aux.format at h
  split_ifs at h
  exact (Except.ok.inj h).symm

theorem stringfy_eq_ok {s : List Char} (h : r.stringfy = .ok s) : s = r.text := by
  obtain ⟨_, -, h⟩ := bind_eq_ok.mp h
  obtain ⟨_, -, h⟩ := bind_eq_ok.mp h
  obtain ⟨_, -, h⟩ := bind_eq_ok.mp h
  exact format_eq_ok h

/-- The races of one entry, a line each. -/
theorem lines_dumpRaces {rs : List RuntimeRace} {s t : List Char} (h : dumpRaces rs = .ok s) :
    lines (s ++ t) = (rs.map fun r => r.text ++ ['\n']) ++ lines t := by
  induction rs generalizing s with
  | nil =>
    cases h
    rfl
  | cons r rs ih =>
    obtain ⟨s₁, h₁, h⟩ := bind_eq_ok.mp h
    obtain ⟨s₂, h₂, h⟩ := bind_eq_ok.mp h
    obtain rfl := stringfy_eq_ok h₁
    obtain rfl := pure_eq_ok.mp h
    rw [List.append_assoc, List.cons_append, lines_append newline_race, ih h₂]
    rfl

/-- **The lines of a file.** -/
theorem lines_dumpEntries {entries : List (InstRacePair × List RuntimeRace)} {text : List Char}
    (h : dumpEntries entries = .ok text) : lines text = entries.flatMap groupLines := by
  induction entries generalizing text with
  | nil =>
    cases h
    rfl
  | cons x entries ih =>
    obtain ⟨s, hs, h⟩ := bind_eq_ok.mp h
    obtain ⟨races, hraces, h⟩ := bind_eq_ok.mp h
    obtain ⟨rest, hrest, h⟩ := bind_eq_ok.mp h
    obtain rfl := format_eq_ok hs
    obtain rfl := pure_eq_ok.mp h
    rw [lines_append newline_text, lines_append newline_countText, lines_dumpRaces hraces, ih hrest]
    rfl

/-! ### The keys -/

/-- **Equal keys** are of the same two instructions. -/
theorem readKey_eq_iff : (readKey p).eq (readKey q) ↔ s(p.firstInstId, p.secondInstId) = s(q.firstInstId, q.secondInstId) := by
  rw [readKey, readKey, Scripts.InstRace.eq_init_iff, Sym2.eq_iff, Sym2.eq_iff]
  simp only [decimal_inj]

theorem ids_eq_of_readKey (h : (readKey p).eq (readKey q)) : p.ids = q.ids := by
  have hp := p.ordered
  have hq := q.ordered
  rcases Sym2.eq_iff.mp (readKey_eq_iff.mp h) with ⟨h₁, h₂⟩ | ⟨h₁, h₂⟩
  · exact Prod.ext h₁ h₂
  · exact Prod.ext (show p.firstInstId = q.firstInstId by omega) (show p.secondInstId = q.secondInstId by omega)

theorem readKey_eq_self : (readKey p).eq (readKey p) := readKey_eq_iff.mpr rfl

/-- The keys of a table are read as different keys. -/
theorem readKey_ne {entries : List (InstRacePair × List RuntimeRace)} {x : InstRacePair × List RuntimeRace}
    (h : SortedTable (x :: entries)) : ∀ y ∈ entries, (readKey x.1).eq (readKey y.1) = false := by
  intro y hy
  refine Bool.eq_false_iff.mpr fun heq => ids_ne_of_lt ((List.pairwise_cons.mp h).1 y hy) (ids_eq_of_readKey heq)

/-! ### `loadRuntimeRace` -/

section Runs

variable {k : Scripts.InstRace} {targets : List Scripts.InstRace} {runRaces : Scripts.RunRaces}

theorem appendRace_last {races : List Scripts.RuntimeRace} {race : Scripts.RuntimeRace}
    (hno : ∀ x ∈ runRaces, x.1.eq k = false) (hself : k.eq k) :
    Scripts.appendRace k race (runRaces ++ [(k, races)]) = runRaces ++ [(k, races ++ [race])] := by
  induction runRaces with
  | nil => simp [Scripts.appendRace, hself]
  | cons x rest ih =>
    rw [List.forall_mem_cons] at hno
    rw [List.cons_append, Scripts.appendRace, hno.1, ih hno.2]
    rfl

theorem appendRace_new {race : Scripts.RuntimeRace} (hno : ∀ x ∈ runRaces, x.1.eq k = false) :
    Scripts.appendRace k race runRaces = runRaces ++ [(k, [race])] := by
  induction runRaces with
  | nil => rfl
  | cons x rest ih =>
    rw [List.forall_mem_cons] at hno
    rw [Scripts.appendRace, hno.1, ih hno.2]
    rfl

/-- The races of a group, after the first. -/
theorem loadRuns_last {rs : List RuntimeRace} {races : List Scripts.RuntimeRace} {ls : List Scripts.Str}
    (hno : ∀ x ∈ runRaces, x.1.eq k = false) (hself : k.eq k) (htarget : targets.any (k.eq ·)) :
    Scripts.loadRuns targets k rs.length ((rs.map fun r => r.text ++ ['\n']) ++ ls) (runRaces ++ [(k, races)]) =
      some (ls, runRaces ++ [(k, races ++ rs.map readRace)]) := by
  induction rs generalizing races with
  | nil => simp [Scripts.loadRuns]
  | cons r rs ih =>
    rw [List.length_cons, List.map_cons, List.cons_append, Scripts.loadRuns, if_pos htarget, parse_race]
    simp only [Option.bind_eq_bind, Option.bind_some]
    rw [appendRace_last hno hself, ih, List.append_assoc]
    rfl

/-- **The races of a group.** -/
theorem loadRuns_group {rs : List RuntimeRace} {ls : List Scripts.Str} (hne : rs ≠ [])
    (hno : ∀ x ∈ runRaces, x.1.eq k = false) (hself : k.eq k) (htarget : targets.any (k.eq ·)) :
    Scripts.loadRuns targets k rs.length ((rs.map fun r => r.text ++ ['\n']) ++ ls) runRaces =
      some (ls, runRaces ++ [(k, rs.map readRace)]) := by
  obtain ⟨r, rs, rfl⟩ := List.exists_cons_of_ne_nil hne
  rw [List.length_cons, List.map_cons, List.cons_append, Scripts.loadRuns, if_pos htarget, parse_race]
  simp only [Option.bind_eq_bind, Option.bind_some]
  rw [appendRace_new hno, loadRuns_last hno hself htarget]
  rfl

/-- **All groups.** -/
theorem loadRuntimeRace_groups {entries : List (InstRacePair × List RuntimeRace)} (hsorted : SortedTable entries)
    (hfilled : ∀ x ∈ entries, x.2 ≠ []) (htarget : ∀ x ∈ entries, targets.any ((readKey x.1).eq ·))
    (hno : ∀ x ∈ entries, ∀ y ∈ runRaces, y.1.eq (readKey x.1) = false) :
    Scripts.loadRuntimeRaceFrom targets (entries.flatMap groupLines) runRaces =
      some (runRaces ++ entries.map fun x => (readKey x.1, x.2.map readRace)) := by
  induction entries generalizing runRaces with
  | nil => simp [Scripts.loadRuntimeRaceFrom]
  | cons x entries ih =>
    have hnew := readKey_ne hsorted
    rw [List.forall_mem_cons] at hfilled htarget hno
    rw [List.flatMap_cons, groupLines, List.cons_append, List.cons_append,
      Scripts.loadRuntimeRaceFrom_group parse_text firstNumber_countText
        (by rw [number_decimal]; exact loadRuns_group hfilled.1 hno.1 readKey_eq_self htarget.1),
      ih (List.pairwise_cons.mp hsorted).2 hfilled.2 htarget.2 fun y hy z hz => ?_, List.append_assoc]
    · rfl
    · rcases List.mem_append.mp hz with hz | hz
      · exact hno.2 y hy z hz
      · cases List.mem_singleton.mp hz
        exact hnew y hy

end Runs

/-! ### `loadRaceFile` -/

section File

variable {m : Scripts.RaceFileManager} {rf : Scripts.RaceFile} {k : Scripts.InstRace}

theorem skipLines_append (ls₁ ls₂ : List Scripts.Str) : Scripts.skipLines ls₁.length (ls₁ ++ ls₂) = some ls₂ := by
  induction ls₁ with
  | nil => rfl
  | cons l ls₁ ih => exact ih

/-- The loop of `loadRaceFile` over keys. -/
def addKeys (m : Scripts.RaceFileManager) (rf : Scripts.RaceFile) :
    List Scripts.InstRace → Scripts.RaceFileManager × Scripts.RaceFile
  | [] => (m, rf)
  | k :: ks => addKeys (m.addKey rf k).1 (m.addKey rf k).2 ks

/-- **All groups.** -/
theorem loadRaceFile_groups {entries : List (InstRacePair × List RuntimeRace)} :
    Scripts.loadRaceFileFrom (entries.flatMap groupLines) m rf =
      some (addKeys m rf (entries.map fun x => readKey x.1)) := by
  induction entries generalizing m rf with
  | nil => simp [Scripts.loadRaceFileFrom, addKeys]
  | cons x entries ih =>
    rw [List.flatMap_cons, groupLines, List.cons_append, List.cons_append,
      Scripts.loadRaceFileFrom_group parse_text firstNumber_countText
        (by rw [number_decimal, ← List.length_map (fun r : RuntimeRace => r.text ++ ['\n'])]
            exact skipLines_append _ _), ih]
    rfl

/-- Keys that are all different are listed as they come, those of normal races apart. -/
theorem addKeys_races {ks : List Scripts.InstRace} (hks : ks.Pairwise fun k l => l.eq k = false)
    (hno : ∀ k ∈ ks, ∀ l ∈ rf.instRaces ++ rf.normalInstRaces, k.eq l = false) :
    (addKeys m rf ks).2 = ⟨rf.instRaces ++ ks.filter (fun k => !m.isNormalRace k),
      rf.normalInstRaces ++ ks.filter m.isNormalRace, rf.fpath⟩ := by
  induction ks generalizing m rf with
  | nil => simp [addKeys]
  | cons k ks ih =>
    obtain ⟨hk, hks⟩ := List.pairwise_cons.mp hks
    rw [List.forall_mem_cons] at hno
    have hnew : ∀ ls : List Scripts.InstRace, (∀ l ∈ ls, l ∈ rf.instRaces ++ rf.normalInstRaces) → ls.any (k.eq ·) = false := by
      intro ls hls
      apply List.any_eq_false.mpr
      intro l hl
      rw [hno.1 l (hls l hl)]
      exact Bool.false_ne_true
    have hinst := hnew rf.instRaces fun l hl => List.mem_append_left _ hl
    have hnormal := hnew rf.normalInstRaces fun l hl => List.mem_append_right _ hl
    rw [addKeys, Scripts.RaceFileManager.addKey]
    by_cases hm : m.isNormalRace k
    · rw [hm, Bool.not_true, if_neg Bool.false_ne_true, ih hks]
      · simp [Scripts.RaceFile.addNormal, hnormal, hm]
      · intro l hl l' hl'
        rw [Scripts.RaceFile.addNormal, hnormal, if_neg Bool.false_ne_true, ← List.append_assoc, List.mem_append,
          List.mem_singleton] at hl'
        rcases hl' with hl' | rfl
        · exact hno.2 l hl l' hl'
        · exact hk l hl
    · have hm' : m.isNormalRace k = false := Bool.eq_false_of_not_eq_true hm
      rw [hm', Bool.not_false, if_pos rfl, ih hks]
      · have hsame : Scripts.RaceFileManager.isNormalRace
            { m with totInstRace := Scripts.countRace k m.totInstRace } = m.isNormalRace := rfl
        simp [Scripts.RaceFile.add, hinst, hm', hsame]
      · intro l hl l' hl'
        rw [Scripts.RaceFile.add, hinst, if_neg Bool.false_ne_true, List.append_assoc, List.mem_append,
          List.mem_append, List.mem_singleton] at hl'
        rcases hl' with hl' | rfl | hl'
        · exact hno.2 l hl l' (List.mem_append_left _ hl')
        · exact hk l hl
        · exact hno.2 l hl l' (List.mem_append_right _ hl')

/-- What the loop changes in the manager. -/
theorem addKeys_manager {ks : List Scripts.InstRace} :
    (addKeys m rf ks).1 = { m with totInstRace := (addKeys m rf ks).1.totInstRace } ∧
      ∀ k, Scripts.nrRace (addKeys m rf ks).1.totInstRace k =
        Scripts.nrRace m.totInstRace k + (ks.filter fun k => !m.isNormalRace k).countP (·.eq k) := by
  induction ks generalizing m rf with
  | nil => simp [addKeys]
  | cons k ks ih =>
    rw [addKeys, Scripts.RaceFileManager.addKey]
    by_cases hm : m.isNormalRace k
    · simpa [hm] using ih
    · have hm' : m.isNormalRace k = false := Bool.eq_false_of_not_eq_true hm
      rw [hm', Bool.not_false, if_pos rfl]
      obtain ⟨hmanager, hcount⟩ := @ih { m with totInstRace := Scripts.countRace k m.totInstRace } (rf.add k)
      refine ⟨hmanager, fun l => ?_⟩
      rw [hcount l, List.filter_cons_of_pos (by simp [hm']), List.countP_cons, Scripts.nrRace_countRace]
      have hsame : ∀ l, Scripts.RaceFileManager.isNormalRace
          { m with totInstRace := Scripts.countRace k m.totInstRace } l = m.isNormalRace l := fun _ => rfl
      simp only [hsame]
      omega

end File

/-! ### A file -/

variable {table : InstRaceTable} {text : List Char}

/-- The keys of a table, as they are read. -/
def readKeys (table : InstRaceTable) : List Scripts.InstRace := table.raceTable.map fun x => readKey x.1

theorem readKeys_pairwise : table.readKeys.Pairwise fun k l => l.eq k = false := by
  refine List.pairwise_map.mpr (table.sorted.imp fun hlt => Bool.eq_false_iff.mpr fun heq => ?_)
  exact ids_ne_of_lt hlt (ids_eq_of_readKey heq).symm

theorem loadRuntimeRace_dump (h : table.dumpFile = .ok text) {targets : List Scripts.InstRace}
    (htargets : ∀ k ∈ table.readKeys, targets.any (k.eq ·)) : Scripts.loadRuntimeRace targets text =
      some (table.raceTable.map fun x => (readKey x.1, x.2.map readRace)) := by
  rw [Scripts.loadRuntimeRace, lines_dumpEntries h, loadRuntimeRace_groups table.sorted table.filled]
  · rfl
  · exact fun x hx => htargets _ (List.mem_map.mpr ⟨x, hx, rfl⟩)
  · simp

theorem loadRaceFile_dump (h : table.dumpFile = .ok text) (m : Scripts.RaceFileManager) (fpath : Scripts.Str) :
    ∃ m', m.loadRaceFile fpath text = some m' ∧
      m'.totRaceFile = m.totRaceFile ++ [⟨table.readKeys.filter fun k => !m.isNormalRace k,
        table.readKeys.filter m.isNormalRace, fpath⟩] ∧
      ∀ k, Scripts.nrRace m'.totInstRace k =
        Scripts.nrRace m.totInstRace k + (table.readKeys.filter fun k => !m.isNormalRace k).countP (·.eq k) := by
  obtain ⟨hmanager, hcount⟩ := @addKeys_manager m ⟨[], [], fpath⟩ table.readKeys
  have hraces := @addKeys_races m ⟨[], [], fpath⟩ table.readKeys readKeys_pairwise (by simp)
  have hload : m.loadRaceFile fpath text = some
      { (addKeys m ⟨[], [], fpath⟩ table.readKeys).1 with
        totRaceFile := (addKeys m ⟨[], [], fpath⟩ table.readKeys).1.totRaceFile ++
          [(addKeys m ⟨[], [], fpath⟩ table.readKeys).2]
        accNrTotInstRace := (addKeys m ⟨[], [], fpath⟩ table.readKeys).1.accNrTotInstRace ++
          [(addKeys m ⟨[], [], fpath⟩ table.readKeys).1.totInstRace.length] } := by
    rw [Scripts.RaceFileManager.loadRaceFile, lines_dumpEntries h, loadRaceFile_groups]
    rfl
  refine ⟨_, hload, ?_, hcount⟩
  rw [hraces, hmanager]
  simp

/-- **The race file is read back as it was written.** The file of a table is read to its end, by both readers: the one
gets the keys of the table, each with its races in their order, the other its keys. Two keys are equal in the script, with
the same hash, exactly when they are of the same two instructions; and a letter stays with its instruction. -/
theorem raceFile_roundTrip (h : table.dumpFile = .ok text) :
    (∀ targets : List Scripts.InstRace, (∀ k ∈ table.readKeys, targets.any (k.eq ·)) →
      Scripts.loadRuntimeRace targets text =
        some (table.raceTable.map fun x => (readKey x.1, x.2.map readRace))) ∧
    (∀ (m : Scripts.RaceFileManager) (fpath : Scripts.Str), ∃ m', m.loadRaceFile fpath text = some m' ∧
      m'.totRaceFile = m.totRaceFile ++ [⟨table.readKeys.filter fun k => !m.isNormalRace k,
        table.readKeys.filter m.isNormalRace, fpath⟩] ∧
      ∀ k, Scripts.nrRace m'.totInstRace k =
        Scripts.nrRace m.totInstRace k + (table.readKeys.filter fun k => !m.isNormalRace k).countP (·.eq k)) ∧
    (∀ (p q : InstRacePair) (hashPair : Scripts.Str × Scripts.Str → ℤ),
      ((readKey p).eq (readKey q) ∧ (readKey p).hash hashPair = (readKey q).hash hashPair) ↔
        s(p.firstInstId, p.secondInstId) = s(q.firstInstId, q.secondInstId)) ∧
    ∀ p : InstRacePair, s(((readKey p).firstInstId, (readKey p).firstOp),
        ((readKey p).secondInstId, (readKey p).secondOp)) =
      s((decimal p.firstInstId, [p.firstOp]), (decimal p.secondInstId, [p.secondOp])) := by
  refine ⟨fun targets htargets => loadRuntimeRace_dump h htargets, loadRaceFile_dump h, fun p q hashPair => ?_,
    fun p => Scripts.InstRace.sym2_init _ _ _ _⟩
  rw [← readKey_eq_iff, and_iff_left_iff_imp]
  intro heq
  obtain ⟨hfirst, hsecond⟩ := Scripts.InstRace.eq_iff.mp heq
  rw [Scripts.InstRace.hash, Scripts.InstRace.hash, hfirst, hsecond]

/-- An event whose fields have the width of the source's, of a thread that has an id. -/
structure Printable (e : Event) : Prop where
  tid : e.tid < UNDEFINED_TID
  timestamp : e.timestamp < 2 ^ 64
  instUniqueId : e.instUniqueId < 2 ^ 64
  varAddr : e.varAddr < 2 ^ 64

theorem stringfy_ok (hfirst : Printable r.firstEvt) (hsecond : Printable r.secondEvt)
    (hop : r.firstEvt.opTy ≠ .create ∧ r.firstEvt.opTy ≠ .join) : r.stringfy = .ok r.text := by
  have hevent : ∀ e, Printable e → (RuntimeRace.eventText e).length ≤ 62 := by
    intro e he
    have htid := @length_decimal e.tid (he.tid.trans (by decide))
    have hts := length_decimal he.timestamp
    have hinst := length_decimal he.instUniqueId
    simp only [RuntimeRace.eventText, List.length_append, List.length_cons]
    omega
  have hlen : r.text.length < 1024 - 1 := by
    have h₁ := hevent _ hfirst
    have h₂ := hevent _ hsecond
    have haddr := length_decimal hfirst.varAddr
    simp only [RuntimeRace.text, List.length_append, List.length_cons]
    omega
  rw [RuntimeRace.stringfy, Event.getThread, if_pos hfirst.tid, Event.getThread, if_pos hsecond.tid, Event.getAddress,
    if_pos hop, Aux.format, if_pos hlen]
  rfl

theorem dumpRaces_ok {rs : List RuntimeRace} (h : ∀ r ∈ rs, r.stringfy = .ok r.text) :
    ∃ s, dumpRaces rs = .ok s := by
  induction rs with
  | nil => exact ⟨[], rfl⟩
  | cons r rs ih =>
    rw [List.forall_mem_cons] at h
    obtain ⟨s, hs⟩ := ih h.2
    exact ⟨_, bind_eq_ok.mpr ⟨_, h.1, bind_eq_ok.mpr ⟨s, hs, rfl⟩⟩⟩

/-- **No `assert` stops the file** of a table of such events. -/
theorem dumpFile_ok (hkeys : ∀ x ∈ table.raceTable, x.1.firstInstId < 2 ^ 64 ∧ x.1.secondInstId < 2 ^ 64)
    (hraces : ∀ x ∈ table.raceTable, ∀ r ∈ x.2, Printable r.firstEvt ∧ Printable r.secondEvt ∧
      r.firstEvt.opTy ≠ .create ∧ r.firstEvt.opTy ≠ .join) : ∃ text, table.dumpFile = .ok text := by
  unfold dumpFile
  generalize table.raceTable = entries at hkeys hraces
  induction entries with
  | nil => exact ⟨[], rfl⟩
  | cons x entries ih =>
    rw [List.forall_mem_cons] at hkeys hraces
    obtain ⟨rest, hrest⟩ := ih hkeys.2 hraces.2
    obtain ⟨races, hdump⟩ := dumpRaces_ok fun r hr =>
      stringfy_ok (hraces.1 r hr).1 (hraces.1 r hr).2.1 (hraces.1 r hr).2.2
    have hkey : x.1.stringfy = .ok x.1.text := by
      have h₁ := length_decimal hkeys.1.1
      have h₂ := length_decimal hkeys.1.2
      apply if_pos
      simp only [InstRacePair.text, List.length_append, List.length_cons, List.length_nil]
      omega
    exact ⟨_, bind_eq_ok.mpr ⟨_, hkey, bind_eq_ok.mpr ⟨_, hdump, bind_eq_ok.mpr ⟨_, hrest, rfl⟩⟩⟩⟩

/-- The table of the pairs of a `memcpy`. -/
theorem raceFile_roundTrip_memcpyPairs : ∃ table text, empty.addRaces memcpyPairs = .ok table ∧
    table.dumpFile = .ok text ∧
    (∀ targets : List Scripts.InstRace, (∀ k ∈ table.readKeys, targets.any (k.eq ·)) →
      Scripts.loadRuntimeRace targets text =
        some (table.raceTable.map fun x => (readKey x.1, x.2.map readRace))) ∧
    (∀ (m : Scripts.RaceFileManager) (fpath : Scripts.Str), ∃ m', m.loadRaceFile fpath text = some m' ∧
      m'.totRaceFile = m.totRaceFile ++ [⟨table.readKeys.filter fun k => !m.isNormalRace k,
        table.readKeys.filter m.isNormalRace, fpath⟩] ∧
      ∀ k, Scripts.nrRace m'.totInstRace k =
        Scripts.nrRace m.totInstRace k + (table.readKeys.filter fun k => !m.isNormalRace k).countP (·.eq k)) ∧
    (∀ (p q : InstRacePair) (hashPair : Scripts.Str × Scripts.Str → ℤ),
      ((readKey p).eq (readKey q) ∧ (readKey p).hash hashPair = (readKey q).hash hashPair) ↔
        s(p.firstInstId, p.secondInstId) = s(q.firstInstId, q.secondInstId)) ∧
    ∀ p : InstRacePair, s(((readKey p).firstInstId, (readKey p).firstOp),
        ((readKey p).secondInstId, (readKey p).secondOp)) =
      s((decimal p.firstInstId, [p.firstOp]), (decimal p.secondInstId, [p.secondOp])) := by
  obtain ⟨table, htable⟩ := (@addRaces_ok_iff memcpyPairs empty).mpr racePair_of_memcpyPairs
  obtain ⟨text, htext⟩ : ∃ text, table.dumpFile = .ok text := by
    rw [dumpFile, raceTable_of_addRaces htable]
    exact ⟨_, rfl⟩
  exact ⟨table, text, htable, htext, raceFile_roundTrip htext⟩

end InstRaceTable

end Schnauzer
