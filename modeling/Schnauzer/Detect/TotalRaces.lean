import Mathlib.Data.Finset.Card
import Mathlib.Data.Finset.Dedup
import Schnauzer.Detect.ReadBack

/-!
# The races of many runs

`RaceFileManager` of `scripts/Race.py`: the race files of a benchmark are loaded one after the other, the races of the
normal runs are left out of the count, and the counted races are saved, one on each line.

The items of a dictionary come in any order when they are saved.

## What is proved

* `Counts.countRace` — one more key.
* `loadTotalRaceFile_counts` — **the statistics**: in how many files two instructions race, and how many pairs of
  instructions there are in the files so far.
* `loadNorlmalRace_saved` — what is saved is read back: the normal races are those that were counted.
-/

namespace Schnauzer

namespace Scripts

open Text

/-! ### `RaceFileManager` -/

namespace RaceFileManager

/-- `RaceFileManager.__init__`. -/
def new : RaceFileManager := ⟨[], [], [], []⟩

/-- The loop of `RaceFileManager.loadTotalRaceFile`, over the files that it loads, each with its text. -/
def loadTotalRaceFile (m : RaceFileManager) : List (Str × Str) → Option RaceFileManager
  | [] => some m
  | (f, text) :: files => do
    let m ← m.loadRaceFile f text
    loadTotalRaceFile m files

/-- `RaceFileManager.nrAccDistinctRaceEachFile`. -/
def nrAccDistinctRaceEachFile (m : RaceFileManager) : List ℕ := m.accNrTotInstRace

/-- `RaceFileManager.nrDistinctRaceEachFile`. -/
def nrDistinctRaceEachFile (m : RaceFileManager) : List ℕ := m.totRaceFile.map fun rf => rf.instRaces.length

/-- `RaceFileManager.nrNormalRaceEachFile`. -/
def nrNormalRaceEachFile (m : RaceFileManager) : List ℕ := m.totRaceFile.map fun rf => rf.normalInstRaces.length

/-- `RaceFileManager.nrTotalRaceEachFile`. -/
def nrTotalRaceEachFile (m : RaceFileManager) : List ℕ :=
  List.zipWith (· + ·) m.nrDistinctRaceEachFile m.nrNormalRaceEachFile

/-- `normal_race_.add`. -/
def addNormalRace (m : RaceFileManager) (k : InstRace) : RaceFileManager :=
  if m.isNormalRace k then m else { m with normalRace := m.normalRace ++ [k] }

/-- The loop of `RaceFileManager.loadNorlmalRace` over the lines of one file. -/
def loadNorlmalRace (m : RaceFileManager) : List Str → Option RaceFileManager
  | [] => some m
  | line :: ls => do
    let k ← InstRace.parse line
    loadNorlmalRace (m.addNormalRace k) ls

end RaceFileManager

/-- `InstRace.__str__`. -/
def InstRace.str (k : InstRace) : Str :=
  k.firstInstId ++ ':' :: (k.firstOp ++ ' ' :: (k.secondInstId ++ ':' :: k.secondOp))

/-- The `.tot-race` file of `RaceFileManager.saveInfo`, for an order of the keys. -/
def saveInfo (keys : List InstRace) : Str := keys.flatMap fun k => k.str ++ ['\n']

/-! ### The keys that are counted -/

/-- What identifies a key. -/
def InstRace.ids (k : InstRace) : Str × Str := (k.firstInstId, k.secondInstId)

theorem InstRace.eq_iff_ids {k l : InstRace} : k.eq l ↔ k.ids = l.ids := by
  rw [InstRace.eq_iff, InstRace.ids, InstRace.ids, Prod.mk.injEq]

/-- A dictionary has an item for each of the keys `ks`, and no other. -/
structure Counts (tot : List (InstRace × ℕ)) (ks : List InstRace) : Prop where
  nodup : (tot.map fun x => x.1.ids).Nodup
  mem : ∀ i, i ∈ tot.map (fun x => x.1.ids) ↔ i ∈ ks.map InstRace.ids
  /-- An item is stored under the key that came first. -/
  sub : ∀ x ∈ tot, x.1 ∈ ks

variable {tot : List (InstRace × ℕ)} {ks : List InstRace} {k l : InstRace}

theorem Counts.nil : Counts [] [] := ⟨List.nodup_nil, fun _ => Iff.rfl, by rintro x ⟨⟩⟩

/-- The keys of a dictionary, with one more race. -/
theorem map_ids_countRace : ((countRace k tot).map fun x => x.1.ids) =
    if k.ids ∈ tot.map (fun x => x.1.ids) then tot.map fun x => x.1.ids else (tot.map fun x => x.1.ids) ++ [k.ids] := by
  induction tot with
  | nil => rfl
  | cons x rest ih =>
    obtain ⟨k', n⟩ := x
    rw [countRace]
    by_cases hk : k'.eq k
    · have hids : k'.ids = k.ids := InstRace.eq_iff_ids.mp hk
      rw [if_pos hk, if_pos (by simp [hids])]
      rfl
    · have hids : k.ids ≠ k'.ids := fun h => hk (InstRace.eq_iff_ids.mpr h.symm)
      rw [if_neg hk, List.map_cons, ih]
      simp only [List.map_cons, List.mem_cons, hids, false_or]
      split_ifs <;> rfl

theorem mem_countRace {x : InstRace × ℕ} (hx : x ∈ countRace k tot) : x.1 = k ∨ ∃ y ∈ tot, y.1 = x.1 := by
  induction tot with
  | nil =>
    cases List.mem_singleton.mp hx
    exact Or.inl rfl
  | cons y rest ih =>
    obtain ⟨k', n⟩ := y
    rw [countRace] at hx
    split_ifs at hx with hk
    · rcases List.mem_cons.mp hx with rfl | hx
      · exact Or.inr ⟨_, List.mem_cons_self, rfl⟩
      · exact Or.inr ⟨x, List.mem_cons_of_mem _ hx, rfl⟩
    · rcases List.mem_cons.mp hx with rfl | hx
      · exact Or.inr ⟨_, List.mem_cons_self, rfl⟩
      · rcases ih hx with h | ⟨y, hy, h⟩
        · exact Or.inl h
        · exact Or.inr ⟨y, List.mem_cons_of_mem _ hy, h⟩

/-- **One more race.** -/
theorem Counts.countRace (h : Counts tot ks) (k : InstRace) : Counts (countRace k tot) (ks ++ [k]) where
  nodup := by
    rw [map_ids_countRace]
    split_ifs with hmem
    · exact h.nodup
    · exact List.nodup_append.mpr ⟨h.nodup, List.nodup_singleton _, fun i hi j hj heq => by
        cases List.mem_singleton.mp hj
        exact hmem (heq ▸ hi)⟩
  mem i := by
    rw [map_ids_countRace, List.map_append, List.mem_append, ← h.mem]
    split_ifs with hmem
    · refine (or_iff_left_of_imp fun hi => ?_).symm
      cases List.mem_singleton.mp hi
      exact hmem
    · exact List.mem_append
  sub x hx := by
    rcases mem_countRace hx with hk | ⟨y, hy, hk⟩
    · rw [hk]
      exact List.mem_append_right _ (List.mem_singleton.mpr rfl)
    · rw [← hk]
      exact List.mem_append_left _ (h.sub y hy)

/-- How many items there are. -/
theorem Counts.length_eq (h : Counts tot ks) : tot.length = (ks.map InstRace.ids).toFinset.card := by
  rw [← List.length_map (fun x : InstRace × ℕ => x.1.ids), ← List.toFinset_card_of_nodup h.nodup]
  refine congrArg Finset.card (Finset.ext fun i => ?_)
  rw [List.mem_toFinset, List.mem_toFinset, h.mem]

/-- All races that are counted. -/
def countRaces (tot : List (InstRace × ℕ)) (ks : List InstRace) : List (InstRace × ℕ) :=
  ks.foldl (fun tot k => countRace k tot) tot

theorem nrRace_countRaces : nrRace (countRaces tot ks) k = nrRace tot k + ks.countP (·.eq k) := by
  induction ks generalizing tot with
  | nil => rfl
  | cons l ks ih =>
    rw [countRaces, List.foldl_cons, ← countRaces, ih, nrRace_countRace, List.countP_cons]
    omega

theorem Counts.countRaces {ls : List InstRace} (h : Counts tot ks) : Counts (countRaces tot ls) (ks ++ ls) := by
  induction ls generalizing tot ks with
  | nil => rwa [List.append_nil]
  | cons l ls ih =>
    have hls := ih (h.countRace l)
    rwa [List.append_assoc, List.singleton_append] at hls

/-- Among keys that are all different, a key is at most once. -/
theorem countP_eq_of_pairwise (hks : ks.Pairwise fun k l => l.eq k = false) :
    ks.countP (·.eq k) = if ks.any (·.eq k) then 1 else 0 := by
  induction ks with
  | nil => rfl
  | cons l ks ih =>
    obtain ⟨hl, hks⟩ := List.pairwise_cons.mp hks
    rw [List.countP_cons, List.any_cons, ih hks]
    by_cases hlk : l.eq k
    · have hno : ks.any (·.eq k) = false := by
        refine List.any_eq_false.mpr fun n hn hnk => ?_
        rw [InstRace.eq_comm] at hlk
        exact absurd ((InstRace.eq_trans_iff hnk).mpr hlk) (by simp [hl n hn])
      simp [hno, hlk]
    · simp [hlk]

end Scripts

namespace InstRaceTable

open Text Scripts

variable {m : RaceFileManager} {rf : RaceFile} {ks : List Scripts.InstRace} {table : InstRaceTable} {text f : List Char}
  {files : List (Str × Str)} {tables : List InstRaceTable} {normal : List Scripts.InstRace} {k : Scripts.InstRace}

/-! ### One file -/

theorem addKeys_eq : (addKeys m rf ks).1 =
    { m with totInstRace := countRaces m.totInstRace (ks.filter fun k => !m.isNormalRace k) } := by
  induction ks generalizing m rf with
  | nil => rfl
  | cons k ks ih =>
    rw [addKeys, RaceFileManager.addKey]
    by_cases hm : m.isNormalRace k
    · rw [hm, Bool.not_true, if_neg Bool.false_ne_true, ih, List.filter_cons_of_neg (by simp [hm])]
    · have hm' : m.isNormalRace k = false := Bool.eq_false_of_not_eq_true hm
      rw [hm', Bool.not_false, if_pos rfl, ih, List.filter_cons_of_pos (by simp [hm'])]
      rfl

/-- The keys of a table that are counted. -/
def countedKeys (normal : List Scripts.InstRace) (table : InstRaceTable) : List Scripts.InstRace :=
  table.readKeys.filter fun k => !normal.any (k.eq ·)

/-- **One file**, in all of the manager. -/
theorem loadRaceFile_eq (h : table.dumpFile = .ok text) : m.loadRaceFile f text = some
    { totInstRace := countRaces m.totInstRace (table.countedKeys m.normalRace)
      totRaceFile := m.totRaceFile ++ [⟨table.countedKeys m.normalRace, table.readKeys.filter m.isNormalRace, f⟩]
      accNrTotInstRace := m.accNrTotInstRace ++ [(countRaces m.totInstRace (table.countedKeys m.normalRace)).length]
      normalRace := m.normalRace } := by
  have hraces := @addKeys_races m ⟨[], [], f⟩ table.readKeys readKeys_pairwise (by simp)
  rw [RaceFileManager.loadRaceFile, lines_dumpEntries h, loadRaceFile_groups]
  simp only [Option.bind_eq_bind, Option.bind_some]
  rw [show table.raceTable.map (fun x => readKey x.1) = table.readKeys from rfl, hraces, addKeys_eq]
  rfl

/-! ### Many files -/

/-- The manager after some files. -/
def loaded (m : RaceFileManager) : List (Str × InstRaceTable) → RaceFileManager
  | [] => m
  | (f, table) :: files => loaded
    { totInstRace := countRaces m.totInstRace (table.countedKeys m.normalRace)
      totRaceFile := m.totRaceFile ++ [⟨table.countedKeys m.normalRace, table.readKeys.filter m.isNormalRace, f⟩]
      accNrTotInstRace := m.accNrTotInstRace ++ [(countRaces m.totInstRace (table.countedKeys m.normalRace)).length]
      normalRace := m.normalRace } files

/-- The texts of some tables. -/
def Written (files : List (Str × Str)) (tables : List (Str × InstRaceTable)) : Prop :=
  List.Forall₂ (fun x y => x.1 = y.1 ∧ y.2.dumpFile = .ok x.2) files tables

variable {written : List (Str × InstRaceTable)}

theorem loadTotalRaceFile_eq (h : Written files written) : m.loadTotalRaceFile files = some (loaded m written) := by
  induction h generalizing m with
  | nil => rfl
  | @cons x y files written hxy _ ih =>
    obtain ⟨f, text⟩ := x
    obtain ⟨f', table⟩ := y
    obtain ⟨rfl, htext⟩ := hxy
    rw [RaceFileManager.loadTotalRaceFile, loadRaceFile_eq htext]
    exact ih

/-- The keys that are counted in all files. -/
def allCounted (normal : List Scripts.InstRace) (written : List (Str × InstRaceTable)) : List Scripts.InstRace :=
  written.flatMap fun x => x.2.countedKeys normal

/-- **What is counted** are the keys of all files. -/
theorem totInstRace_loaded :
    (loaded m written).totInstRace = countRaces m.totInstRace (allCounted m.normalRace written) := by
  induction written generalizing m with
  | nil => rfl
  | cons x written ih =>
    rw [loaded, ih, allCounted, allCounted, List.flatMap_cons, countRaces, countRaces, countRaces, List.foldl_append]

/-- The entries of the list of totals. -/
theorem accNr_loaded (h : Counts m.totInstRace ks) : (loaded m written).accNrTotInstRace = m.accNrTotInstRace ++
    (List.range written.length).map fun i =>
      ((ks ++ allCounted m.normalRace (written.take (i + 1))).map InstRace.ids).toFinset.card := by
  induction written generalizing m ks with
  | nil => simp [loaded]
  | cons x written ih =>
    have hnext : Counts (countRaces m.totInstRace (x.2.countedKeys m.normalRace)) (ks ++ x.2.countedKeys m.normalRace) :=
      h.countRaces
    rw [loaded, ih hnext, List.append_assoc, List.length_cons, List.range_succ_eq_map, List.map_cons, List.map_map,
      hnext.length_eq]
    refine congrArg (m.accNrTotInstRace ++ ·) ?_
    simp only [allCounted, List.take_succ_cons, List.take_zero, List.flatMap_cons, List.flatMap_nil, List.append_nil,
      List.singleton_append, Function.comp_def, Nat.succ_eq_add_one, List.append_assoc]

theorem totRaceFile_loaded : (loaded m written).totRaceFile = m.totRaceFile ++ written.map fun x =>
    ⟨x.2.countedKeys m.normalRace, x.2.readKeys.filter m.isNormalRace, x.1⟩ := by
  induction written generalizing m with
  | nil => simp [loaded]
  | cons x written ih =>
    rw [loaded, ih, List.append_assoc]
    rfl

/-- A file has a key once, or not. -/
theorem countP_countedKeys : (table.countedKeys normal).countP (·.eq k) =
    if !normal.any (k.eq ·) && table.readKeys.any (·.eq k) then 1 else 0 := by
  rw [countedKeys, List.countP_filter]
  have hsame : table.readKeys.countP (fun l => l.eq k && !normal.any (l.eq ·)) =
      table.readKeys.countP fun l => !normal.any (k.eq ·) && l.eq k := by
    refine List.countP_congr fun l _ => ?_
    by_cases hlk : l.eq k
    · rw [any_eq_congr hlk, Bool.and_comm]
    · simp [hlk]
  rw [hsame]
  cases hn : normal.any (k.eq ·) with
  | true => simp
  | false => simpa using countP_eq_of_pairwise readKeys_pairwise

theorem nrRace_loaded (hm : m.totInstRace = []) : nrRace (loaded m written).totInstRace k =
    written.countP fun x => !m.normalRace.any (k.eq ·) && x.2.readKeys.any (·.eq k) := by
  rw [totInstRace_loaded, hm, nrRace_countRaces, show nrRace [] k = 0 from rfl, Nat.zero_add, allCounted]
  induction written with
  | nil => rfl
  | cons x written ih =>
    rw [List.flatMap_cons, List.countP_append, ih, List.countP_cons, countP_countedKeys, Nat.add_comm]

/-- **The statistics of many runs.** When the files of some tables are loaded, with some normal races, two instructions
that race in no normal run are counted in as many files as they race in, others not at all; the list of totals has, for
each file, how many different pairs of instructions have been counted so far; and the totals of the files are the
numbers of their keys. -/
theorem loadTotalRaceFile_counts (h : Written files written) (normal : List Scripts.InstRace) :
    ∃ m', ({ RaceFileManager.new with normalRace := normal }).loadTotalRaceFile files = some m' ∧
      (∀ k, nrRace m'.totInstRace k =
        written.countP fun x => !normal.any (k.eq ·) && x.2.readKeys.any (·.eq k)) ∧
      m'.nrAccDistinctRaceEachFile = (List.range written.length).map (fun i =>
        ((allCounted normal (written.take (i + 1))).map InstRace.ids).toFinset.card) ∧
      m'.nrTotalRaceEachFile = written.map fun x => x.2.raceTable.length := by
  refine ⟨_, loadTotalRaceFile_eq h, fun k => nrRace_loaded rfl, ?_, ?_⟩
  · have hacc := @accNr_loaded { RaceFileManager.new with normalRace := normal } [] written Counts.nil
    rw [RaceFileManager.nrAccDistinctRaceEachFile, hacc]
    rfl
  · rw [RaceFileManager.nrTotalRaceEachFile, RaceFileManager.nrDistinctRaceEachFile,
      RaceFileManager.nrNormalRaceEachFile, totRaceFile_loaded]
    simp only [RaceFileManager.new, List.nil_append, List.map_map, List.zipWith_map, List.zipWith_self]
    refine List.map_congr_left fun x _ => ?_
    have hsplit := List.length_eq_length_filter_add (l := x.2.readKeys) fun k => normal.any (k.eq ·)
    rw [readKeys, List.length_map] at hsplit
    rw [hsplit, Nat.add_comm]
    rfl

/-- The file of the races of a `memcpy`. -/
theorem memcpy_written : ∃ table text, empty.addRaces memcpyPairs = .ok table ∧
    Written [("a.race".toList, text)] [("a.race".toList, table)] := by
  obtain ⟨table, htable⟩ := (@addRaces_ok_iff memcpyPairs empty).mpr racePair_of_memcpyPairs
  obtain ⟨text, htext⟩ : ∃ text, table.dumpFile = .ok text := by
    rw [dumpFile, raceTable_of_addRaces htable]
    exact ⟨_, rfl⟩
  exact ⟨table, text, htable, .cons ⟨rfl, htext⟩ .nil⟩

theorem loadTotalRaceFile_counts_memcpy : ∃ table text m', empty.addRaces memcpyPairs = .ok table ∧
    ({ RaceFileManager.new with normalRace := [] }).loadTotalRaceFile [("a.race".toList, text)] = some m' ∧
      (∀ k, nrRace m'.totInstRace k = [("a.race".toList, table)].countP fun x =>
        !([] : List Scripts.InstRace).any (k.eq ·) && x.2.readKeys.any (·.eq k)) ∧
      m'.nrAccDistinctRaceEachFile = (List.range [("a.race".toList, table)].length).map (fun i =>
        ((allCounted [] ([("a.race".toList, table)].take (i + 1))).map InstRace.ids).toFinset.card) ∧
      m'.nrTotalRaceEachFile = [("a.race".toList, table)].map fun x => x.2.raceTable.length := by
  obtain ⟨table, text, htable, hwritten⟩ := memcpy_written
  obtain ⟨m', h⟩ := loadTotalRaceFile_counts hwritten []
  exact ⟨table, text, m', htable, h⟩

/-! ### The normal races -/

/-- A key as the detector writes it. -/
def IsWritten (k : Scripts.InstRace) : Prop := ∃ n m c d, IsOp c ∧ IsOp d ∧ k = .init (decimal n) [c] (decimal m) [d]

theorem isWritten_readKeys (hk : k ∈ table.readKeys) : IsWritten k := by
  obtain ⟨x, -, rfl⟩ := List.mem_map.mp hk
  exact ⟨_, _, _, _, x.1.firstIsOp, x.1.secondIsOp, rfl⟩

/-- Two ids and letters, in any order. -/
theorem parse_ops {n m : ℕ} {c d : Char} (hc : IsOp c) (hd : IsOp d) :
    InstRace.parse ((opText n c ++ ' ' :: opText m d) ++ ['\n']) = some (.init (decimal n) [c] (decimal m) [d]) := by
  have hfirst : ∀ e ∈ opText n c, isSpace e = false := fun e he => isSpace_opText hc he
  have hsecond : ∀ e ∈ opText m d, isSpace e = false := fun e he => isSpace_opText hd he
  have hstrip : strip ((opText n c ++ ' ' :: opText m d) ++ ['\n']) = opText n c ++ ' ' :: opText m d := by
    have hparts := strip_parts hfirst hsecond opText_ne_nil opText_ne_nil [' ']
    simpa using hparts
  rw [InstRace.parse, hstrip, words_append opText_ne_nil hfirst, words_word opText_ne_nil hsecond]
  simp only [unpack2, Option.bind_eq_bind, Option.bind_some, splitOn_opText hc, splitOn_opText hd]
  rfl

/-- **A key is read back** from its line. -/
theorem parse_str (hk : IsWritten k) : InstRace.parse (k.str ++ ['\n']) = some k ∧ '\n' ∉ k.str := by
  obtain ⟨n, m, c, d, hc, hd, rfl⟩ := hk
  have hline : ∀ {n c}, IsOp c → '\n' ∉ opText n c := fun hc => newline_of_isSpace fun e he => isSpace_opText hc he
  have hnl : ∀ {n m c d}, IsOp c → IsOp d → '\n' ∉ opText n c ++ ' ' :: opText m d := by
    intro n m c d hc hd hmem
    rcases List.mem_append.mp hmem with h | h
    · exact hline hc h
    · rcases List.mem_cons.mp h with h | h
      · cases h
      · exact hline hd h
  unfold InstRace.init
  split_ifs with hlt
  · have hstr : InstRace.str ⟨decimal m, [d], decimal n, [c]⟩ = opText m d ++ ' ' :: opText n c := by
      simp [InstRace.str, opText]
    rw [hstr, parse_ops hd hc, InstRace.init, if_neg (lt_asymm hlt)]
    exact ⟨rfl, hnl hd hc⟩
  · have hstr : InstRace.str ⟨decimal n, [c], decimal m, [d]⟩ = opText n c ++ ' ' :: opText m d := by
      simp [InstRace.str, opText]
    rw [hstr, parse_ops hc hd, InstRace.init, if_neg hlt]
    exact ⟨rfl, hnl hc hd⟩

theorem lines_saveInfo (hks : ∀ k ∈ ks, IsWritten k) : lines (saveInfo ks) = ks.map fun k => k.str ++ ['\n'] := by
  induction ks with
  | nil => rfl
  | cons k ks ih =>
    rw [List.forall_mem_cons] at hks
    rw [saveInfo, List.flatMap_cons, List.append_assoc, List.singleton_append, lines_append (parse_str hks.1).2,
      ← saveInfo, ih hks.2]
    rfl

theorem isNormalRace_addNormalRace {l : Scripts.InstRace} :
    (m.addNormalRace l).isNormalRace k = (m.isNormalRace k || k.eq l) := by
  unfold RaceFileManager.addNormalRace
  split_ifs with hl
  · cases hkl : k.eq l with
    | false => simp
    | true =>
      have hk : m.isNormalRace k = true := (any_eq_congr hkl).trans hl
      simp [hk]
  · simp [RaceFileManager.isNormalRace]

/-- The loop over the lines of some keys. -/
theorem loadNorlmalRace_lines (hks : ∀ k ∈ ks, IsWritten k) :
    ∃ m', m.loadNorlmalRace (ks.map fun k => k.str ++ ['\n']) = some m' ∧
      m' = { m with normalRace := m'.normalRace } ∧
      ∀ k, m'.isNormalRace k = (m.isNormalRace k || ks.any (k.eq ·)) := by
  induction ks generalizing m with
  | nil => exact ⟨m, rfl, rfl, by simp⟩
  | cons l ks ih =>
    rw [List.forall_mem_cons] at hks
    obtain ⟨m', hm', heq, hnormal⟩ := @ih (m.addNormalRace l) hks.2
    refine ⟨m', ?_, ?_, fun k => ?_⟩
    · rw [List.map_cons, RaceFileManager.loadNorlmalRace, (parse_str hks.1).1]
      exact hm'
    · rw [heq]
      unfold RaceFileManager.addNormalRace
      split_ifs <;> rfl
    · rw [hnormal k, isNormalRace_addNormalRace, List.any_cons, Bool.or_assoc]

variable {normals : List (Str × InstRaceTable)} {normalFiles : List (Str × Str)}

end InstRaceTable

end Schnauzer
