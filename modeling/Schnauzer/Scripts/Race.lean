import Mathlib.Data.Char
import Mathlib.Data.List.Lex
import Mathlib.Data.Sym.Sym2
import Schnauzer.Lib.Text

/-!
# Reading race files

`scripts/Race.py`: the file that `InstRaceTable::dumpFile` writes is read line by line, and its keys are made again with
the ids of the instructions as strings. `none` is an exception that the script does not catch (a line that does not unpack,
or a file that ends inside a group).

A dictionary is the list of its items; an item is looked up with `__eq__`, as `__hash__` is made of what `__eq__` compares.

## What is proved

* `InstRace.eq_iff`, `InstRace.sym2_init` — what identifies a key, and that a letter stays with its instruction.
* `loadRuntimeRaceFrom_group`, `loadRaceFileFrom_group` — one group of the file.
-/

namespace Schnauzer

namespace Scripts

open Text

/-- A string. -/
abbrev Str := List Char

/-- `a, b = l`. -/
def unpack2 : List Str → Option (Str × Str)
  | [a, b] => some (a, b)
  | _ => none

/-- `a, b, c = l`. -/
def unpack3 : List Str → Option (Str × Str × Str)
  | [a, b, c] => some (a, b, c)
  | _ => none

/-- `RuntimeRace`. -/
structure RuntimeRace where
  firstTid : Str
  firstTs : Str
  firstInstId : Str
  secondTid : Str
  secondTs : Str
  secondInstId : Str
  addr : Str
  deriving DecidableEq

/-- `RuntimeRace.parse`. -/
def RuntimeRace.parse (line : Str) : Option RuntimeRace := do
  let info := words (strip line)
  let (firstTid, firstTs, firstInstId) ← unpack3 ((strip (← info[0]?)).splitOn ':')
  let (secondTid, secondTs, secondInstId) ← unpack3 ((strip (← info[1]?)).splitOn ':')
  let addr ← info[2]?
  return ⟨firstTid, firstTs, firstInstId, secondTid, secondTs, secondInstId, addr⟩

/-- `InstRace`. -/
structure InstRace where
  firstInstId : Str
  firstOp : Str
  secondInstId : Str
  secondOp : Str
  deriving DecidableEq

namespace InstRace

/-- `InstRace.__init__`. -/
def init (firstInstId firstOp secondInstId secondOp : Str) : InstRace :=
  if firstInstId > secondInstId then ⟨secondInstId, secondOp, firstInstId, firstOp⟩
  else ⟨firstInstId, firstOp, secondInstId, secondOp⟩

/-- `InstRace.parse`. -/
def parse (line : Str) : Option InstRace := do
  let (firstInfo, secondInfo) ← unpack2 (words (strip line))
  let (firstInstId, firstOp) ← unpack2 (firstInfo.splitOn ':')
  let (secondInstId, secondOp) ← unpack2 (secondInfo.splitOn ':')
  return init firstInstId firstOp secondInstId secondOp

/-- `InstRace.__eq__`. -/
def eq (k l : InstRace) : Bool := k.firstInstId = l.firstInstId && k.secondInstId = l.secondInstId

/-- `InstRace.__hash__`, with the hash of a pair of strings. -/
def hash (hashPair : Str × Str → ℤ) (k : InstRace) : ℤ := hashPair (k.firstInstId, k.secondInstId)

theorem eq_iff {k l : InstRace} : k.eq l ↔ k.firstInstId = l.firstInstId ∧ k.secondInstId = l.secondInstId := by
  simp [eq]

theorem eq_trans_iff {k l n : InstRace} (h : k.eq l) : k.eq n ↔ l.eq n := by
  rw [eq_iff] at h
  rw [eq_iff, eq_iff, h.1, h.2]

theorem eq_comm {k l : InstRace} : k.eq l = l.eq k := by
  rw [Bool.eq_iff_iff, eq_iff, eq_iff, @Eq.comm _ k.firstInstId, @Eq.comm _ k.secondInstId]

/-- Keys of the same two instructions are equal, whichever is named first. -/
theorem eq_init_iff {a b c d opA opB opC opD : Str} :
    (init a opA b opB).eq (init c opC d opD) ↔ s(a, b) = s(c, d) := by
  rw [eq_iff, Sym2.eq_iff]
  unfold init
  split_ifs with hab hcd hcd
  · constructor
    · rintro ⟨rfl, rfl⟩
      exact Or.inl ⟨rfl, rfl⟩
    · rintro (⟨rfl, rfl⟩ | ⟨rfl, rfl⟩)
      · exact ⟨rfl, rfl⟩
      · exact absurd hcd (lt_asymm hab)
  · constructor
    · rintro ⟨rfl, rfl⟩
      exact Or.inr ⟨rfl, rfl⟩
    · rintro (⟨rfl, rfl⟩ | ⟨rfl, rfl⟩)
      · exact absurd hab hcd
      · exact ⟨rfl, rfl⟩
  · constructor
    · rintro ⟨rfl, rfl⟩
      exact Or.inr ⟨rfl, rfl⟩
    · rintro (⟨rfl, rfl⟩ | ⟨rfl, rfl⟩)
      · exact absurd hcd hab
      · exact ⟨rfl, rfl⟩
  · constructor
    · rintro ⟨rfl, rfl⟩
      exact Or.inl ⟨rfl, rfl⟩
    · rintro (⟨rfl, rfl⟩ | ⟨rfl, rfl⟩)
      · exact ⟨rfl, rfl⟩
      · have heq := le_antisymm (not_lt.mp hab) (not_lt.mp hcd)
        exact ⟨heq, heq.symm⟩

/-- A letter stays with its instruction. -/
theorem sym2_init (a opA b opB : Str) : s(((init a opA b opB).firstInstId, (init a opA b opB).firstOp),
    ((init a opA b opB).secondInstId, (init a opA b opB).secondOp)) = s((a, opA), (b, opB)) := by
  unfold init
  split_ifs
  · exact Sym2.eq_swap
  · rfl

end InstRace

/-! ### `RaceFile` -/

/-- The items of a `defaultdict` of lists. -/
abbrev RunRaces := List (InstRace × List RuntimeRace)

/-- `run_races[inst_race].append(race)`. -/
def appendRace (instRace : InstRace) (race : RuntimeRace) : RunRaces → RunRaces
  | [] => [(instRace, [race])]
  | (k, races) :: rest =>
    if k.eq instRace then (k, races ++ [race]) :: rest else (k, races) :: appendRace instRace race rest

/-- The inner loop of `RaceFile.loadRuntimeRace`: the lines that are left, and the dictionary. -/
def loadRuns (targets : List InstRace) (instRace : InstRace) : ℕ → List Str → RunRaces → Option (List Str × RunRaces)
  | 0, ls, runRaces => some (ls, runRaces)
  | _ + 1, [], _ => none
  | num + 1, line :: ls, runRaces =>
    if targets.any (instRace.eq ·) then do
      let race ← RuntimeRace.parse line
      loadRuns targets instRace num ls (appendRace instRace race runRaces)
    else loadRuns targets instRace num ls runRaces

theorem loadRuns_length {targets : List InstRace} {instRace : InstRace} {num : ℕ} {ls ls' : List Str}
    {runRaces runRaces' : RunRaces} (h : loadRuns targets instRace num ls runRaces = some (ls', runRaces')) :
    ls'.length ≤ ls.length := by
  induction num generalizing ls runRaces with
  | zero =>
    cases h
    exact le_rfl
  | succ num ih =>
    cases ls with
    | nil => cases h
    | cons line ls =>
      rw [loadRuns] at h
      split_ifs at h
      · obtain ⟨race, -, h⟩ := Option.bind_eq_some_iff.mp h
        exact (ih h).trans (Nat.le_succ _)
      · exact (ih h).trans (Nat.le_succ _)

/-- `RaceFile.loadRuntimeRace`, from a line on. -/
def loadRuntimeRaceFrom (targets : List InstRace) (ls : List Str) (runRaces : RunRaces) : Option RunRaces :=
  match ls with
  | [] => some runRaces
  | [_] => none
  | line :: count :: ls =>
    match InstRace.parse line, firstNumber count with
    | some instRace, some digits =>
      match h : loadRuns targets instRace (number digits) ls runRaces with
      | some (ls', runRaces') =>
        have := loadRuns_length h
        loadRuntimeRaceFrom targets ls' runRaces'
      | none => none
    | _, _ => none
termination_by ls.length
decreasing_by simp; omega

/-- `RaceFile.loadRuntimeRace`. -/
def loadRuntimeRace (targets : List InstRace) (text : Str) : Option RunRaces :=
  loadRuntimeRaceFrom targets (lines text) []

/-- `RaceFile`. -/
structure RaceFile where
  /-- `inst_races_`. -/
  instRaces : List InstRace
  /-- `normal_inst_races_`. -/
  normalInstRaces : List InstRace
  /-- `fpath_`. -/
  fpath : Str
  deriving DecidableEq

namespace RaceFile

/-- `RaceFile.add`. -/
def add (rf : RaceFile) (instRace : InstRace) : RaceFile :=
  if rf.instRaces.any (instRace.eq ·) then rf else { rf with instRaces := rf.instRaces ++ [instRace] }

/-- `RaceFile.addNormal`. -/
def addNormal (rf : RaceFile) (instRace : InstRace) : RaceFile :=
  if rf.normalInstRaces.any (instRace.eq ·) then rf
  else { rf with normalInstRaces := rf.normalInstRaces ++ [instRace] }

end RaceFile

/-! ### `RaceFileManager` -/

/-- `RaceFileManager`. -/
structure RaceFileManager where
  /-- `tot_inst_race_`: the items of a `defaultdict` of numbers. -/
  totInstRace : List (InstRace × ℕ)
  /-- `tot_race_file_`. -/
  totRaceFile : List RaceFile
  /-- `acc_nr_tot_inst_race_`. -/
  accNrTotInstRace : List ℕ
  /-- `normal_race_`. -/
  normalRace : List InstRace

/-- `tot_inst_race_[inst_race] += 1`. -/
def countRace (instRace : InstRace) : List (InstRace × ℕ) → List (InstRace × ℕ)
  | [] => [(instRace, 1)]
  | (k, n) :: rest => if k.eq instRace then (k, n + 1) :: rest else (k, n) :: countRace instRace rest

/-- `tot_inst_race_[inst_race]`. -/
def nrRace (tot : List (InstRace × ℕ)) (instRace : InstRace) : ℕ :=
  ((tot.find? fun x => x.1.eq instRace).map Prod.snd).getD 0

/-- The inner loop of `RaceFileManager.loadRaceFile`, which skips lines. -/
def skipLines : ℕ → List Str → Option (List Str)
  | 0, ls => some ls
  | _ + 1, [] => none
  | num + 1, _ :: ls => skipLines num ls

theorem skipLines_length {num : ℕ} {ls ls' : List Str} (h : skipLines num ls = some ls') : ls'.length ≤ ls.length := by
  induction num generalizing ls with
  | zero =>
    cases h
    exact le_rfl
  | succ num ih =>
    cases ls with
    | nil => cases h
    | cons line ls => exact (ih h).trans (Nat.le_succ _)

/-- `RaceFileManager.isNormalRace`. -/
def RaceFileManager.isNormalRace (m : RaceFileManager) (r : InstRace) : Bool := m.normalRace.any (r.eq ·)

/-- What `RaceFileManager.loadRaceFile` does with a key. -/
def RaceFileManager.addKey (m : RaceFileManager) (rf : RaceFile) (instRace : InstRace) : RaceFileManager × RaceFile :=
  if !m.isNormalRace instRace then ({ m with totInstRace := countRace instRace m.totInstRace }, rf.add instRace)
  else (m, rf.addNormal instRace)

/-- The loop of `RaceFileManager.loadRaceFile`, from a line on. -/
def loadRaceFileFrom (ls : List Str) (m : RaceFileManager) (rf : RaceFile) : Option (RaceFileManager × RaceFile) :=
  match ls with
  | [] => some (m, rf)
  | [_] => none
  | line :: count :: ls =>
    match InstRace.parse line, firstNumber count with
    | some instRace, some digits =>
      match h : skipLines (number digits) ls with
      | some ls' =>
        have := skipLines_length h
        loadRaceFileFrom ls' (m.addKey rf instRace).1 (m.addKey rf instRace).2
      | none => none
    | _, _ => none
termination_by ls.length
decreasing_by simp; omega

/-- `RaceFileManager.loadRaceFile`. -/
def RaceFileManager.loadRaceFile (m : RaceFileManager) (fpath text : Str) : Option RaceFileManager := do
  let (m, rf) ← loadRaceFileFrom (lines text) m ⟨[], [], fpath⟩
  return { m with totRaceFile := m.totRaceFile ++ [rf]
                  accNrTotInstRace := m.accNrTotInstRace ++ [m.totInstRace.length] }

/-- One more file of a key. -/
theorem nrRace_countRace {k l : InstRace} {tot : List (InstRace × ℕ)} :
    nrRace (countRace k tot) l = nrRace tot l + if k.eq l then 1 else 0 := by
  unfold nrRace
  induction tot with
  | nil => cases hkl : k.eq l <;> simp [countRace, hkl]
  | cons x rest ih =>
    obtain ⟨k', n⟩ := x
    rw [countRace]
    by_cases hk : k'.eq k
    · rw [if_pos hk]
      by_cases hkl : k.eq l
      · have hl : k'.eq l := (InstRace.eq_trans_iff hk).mpr hkl
        simp [hl, hkl]
      · have hl : ¬ k'.eq l := fun h => hkl ((InstRace.eq_trans_iff hk).mp h)
        simp [hl, hkl]
    · rw [if_neg hk]
      by_cases hl : k'.eq l
      · have hkl : ¬ k.eq l := fun h => hk ((InstRace.eq_trans_iff hl).mpr (by rwa [InstRace.eq_comm]))
        simp [hl, hkl]
      · simpa [List.find?_cons, hl] using ih

/-! ### One group of a file -/

section Group

variable {targets : List InstRace} {line count digits : Str} {ls ls' : List Str} {instRace : InstRace}

theorem loadRuntimeRaceFrom_group {runRaces runRaces' : RunRaces} (hkey : InstRace.parse line = some instRace)
    (hcount : firstNumber count = some digits)
    (hruns : loadRuns targets instRace (number digits) ls runRaces = some (ls', runRaces')) :
    loadRuntimeRaceFrom targets (line :: count :: ls) runRaces = loadRuntimeRaceFrom targets ls' runRaces' := by
  rw [loadRuntimeRaceFrom]
  simp only [hkey, hcount]
  split
  next h =>
    rw [hruns] at h
    cases h
    rfl
  next h =>
    rw [hruns] at h
    cases h

theorem loadRaceFileFrom_group {m : RaceFileManager} {rf : RaceFile} (hkey : InstRace.parse line = some instRace)
    (hcount : firstNumber count = some digits) (hskip : skipLines (number digits) ls = some ls') :
    loadRaceFileFrom (line :: count :: ls) m rf =
      loadRaceFileFrom ls' (m.addKey rf instRace).1 (m.addKey rf instRace).2 := by
  rw [loadRaceFileFrom]
  simp only [hkey, hcount]
  split
  next h =>
    rw [hskip] at h
    cases h
    rfl
  next h =>
    rw [hskip] at h
    cases h

end Group

end Scripts

end Schnauzer
