import Mathlib.Data.List.Perm.Basic
import Schnauzer.Common.Event
import Schnauzer.Lib.Text

/-!
# The table of racing instructions

`analyze/detect/InstRace`: the pairs of events that race, listed under the pair of their instructions, and the file that is
written. A `std::map` is a list that its order sorts; the order compares the ids of the instructions only, so that the
letters in the key are those of the pair that came first.

## What is proved

* `InstRacePair.not_lt_iff` — two keys are one key of the map when their ids are the same.
* `sortedTable_emplaceBack`, `filled_emplaceBack` — one more pair keeps the table sorted and its entries filled.
-/

namespace Schnauzer

open Text

/-- `Aux::format`, of the text that its arguments give. -/
def Aux.format (s : List Char) : Except Abort (List Char) := if s.length < 1024 - 1 then .ok s else .error .format

theorem Aux.format_ok {s : List Char} (h : s.length < 1024 - 1) : (Aux.format s).toOption = some s := by
  rw [Aux.format, if_pos h]
  rfl

/-- The letter of an operation. -/
def IsOp (c : Char) : Prop := c = 'r' ∨ c = 'w'

instance (c : Char) : Decidable (IsOp c) := inferInstanceAs (Decidable (_ ∨ _))

/-- `InstRacePair`. -/
@[ext]
structure InstRacePair where
  /-- `first_inst_id_`. -/
  firstInstId : ℕ
  /-- `second_inst_id_`. -/
  secondInstId : ℕ
  /-- `first_op_`. -/
  firstOp : Char
  /-- `second_op_`. -/
  secondOp : Char
  /-- The constructor swaps the two. -/
  ordered : firstInstId ≤ secondInstId
  firstIsOp : IsOp firstOp
  secondIsOp : IsOp secondOp
  deriving DecidableEq

/-- The letter of an access. -/
def Event.opLetter (e : Event) : Char := if e.opTy = .ld then 'r' else 'w'

theorem Event.isOp_opLetter (e : Event) : IsOp e.opLetter := by
  unfold opLetter
  split_ifs
  · exact Or.inl rfl
  · exact Or.inr rfl

namespace InstRacePair

/-- What the constructor of `InstRacePair` makes of two events. -/
def ofEvents (first second : Event) : InstRacePair :=
  if h : first.instUniqueId > second.instUniqueId then
    ⟨second.instUniqueId, first.instUniqueId, second.opLetter, first.opLetter, by omega, second.isOp_opLetter,
      first.isOp_opLetter⟩
  else
    ⟨first.instUniqueId, second.instUniqueId, first.opLetter, second.opLetter, by omega, first.isOp_opLetter,
      second.isOp_opLetter⟩

/-- The constructor of `InstRacePair`. -/
def build (first second : Event) : Except Abort InstRacePair := do
  let isVarAccess ← first.isVarAccessEvent
  if isVarAccess then return ofEvents first second else throw .instRacePair

/-- `InstRacePair::operator <`. -/
def lt (p q : InstRacePair) : Prop :=
  p.firstInstId < q.firstInstId ∨ p.firstInstId = q.firstInstId ∧ p.secondInstId < q.secondInstId

instance (p q : InstRacePair) : Decidable (p.lt q) := inferInstanceAs (Decidable (_ ∨ _))

/-- The text that `InstRacePair::stringfy` formats. -/
def text (p : InstRacePair) : List Char :=
  decimal p.firstInstId ++ ':' :: p.firstOp :: ' ' :: (decimal p.secondInstId ++ [':', p.secondOp])

/-- `InstRacePair::stringfy`. -/
def stringfy (p : InstRacePair) : Except Abort (List Char) := Aux.format p.text

end InstRacePair

/-- `InstRaceTable::RuntimeRace`. -/
@[ext]
structure RuntimeRace where
  /-- `first_evt_`. -/
  firstEvt : Event
  /-- `second_evt_`. -/
  secondEvt : Event
  deriving DecidableEq

namespace RuntimeRace

/-- The constructor of `RuntimeRace`. -/
def build (first second : Event) : Except Abort RuntimeRace := do
  let a ← first.getAddress
  let b ← second.getAddress
  if a ≠ b then throw .runtimeRace else return ⟨first, second⟩

/-- The thread, timestamp and instruction of an event, as `RuntimeRace::stringfy` formats them. -/
def eventText (e : Event) : List Char :=
  decimal e.tid ++ ':' :: (decimal e.timestamp ++ ':' :: decimal e.instUniqueId)

/-- The text that `RuntimeRace::stringfy` formats. -/
def text (r : RuntimeRace) : List Char :=
  eventText r.firstEvt ++ ' ' :: (eventText r.secondEvt ++ ' ' :: decimal r.firstEvt.varAddr)

/-- `RuntimeRace::stringfy`. -/
def stringfy (r : RuntimeRace) : Except Abort (List Char) := do
  let _ ← r.firstEvt.getThread
  let _ ← r.secondEvt.getThread
  let _ ← r.firstEvt.getAddress
  Aux.format r.text

end RuntimeRace

/-- `race_table_[p].emplace_back(r)`. -/
def emplaceBack (p : InstRacePair) (r : RuntimeRace) :
    List (InstRacePair × List RuntimeRace) → List (InstRacePair × List RuntimeRace)
  | [] => [(p, [r])]
  | (q, rs) :: rest =>
    if p.lt q then (p, [r]) :: (q, rs) :: rest
    else if q.lt p then (q, rs) :: emplaceBack p r rest
    else (q, rs ++ [r]) :: rest

/-- A list that `InstRacePair::operator <` sorts. -/
def SortedTable (entries : List (InstRacePair × List RuntimeRace)) : Prop :=
  entries.Pairwise fun x y => x.1.lt y.1

section Table

variable {p q r : InstRacePair} {x : InstRacePair × List RuntimeRace} {race : RuntimeRace}
  {entries : List (InstRacePair × List RuntimeRace)}

/-- The ids of the two instructions. -/
def InstRacePair.ids (p : InstRacePair) : ℕ × ℕ := (p.firstInstId, p.secondInstId)

theorem InstRacePair.lt_trans (h : p.lt q) (h' : q.lt r) : p.lt r := by
  unfold lt at *
  omega

theorem InstRacePair.lt_irrefl : ¬ p.lt p := by
  unfold lt
  omega

/-- Two keys are the same key when their ids are. -/
theorem InstRacePair.not_lt_iff : (¬ p.lt q ∧ ¬ q.lt p) ↔ p.ids = q.ids := by
  unfold lt ids
  rw [Prod.mk.injEq]
  omega

/-- The keys after one more pair. -/
theorem mem_emplaceBack_keys (hx : x ∈ emplaceBack p race entries) : x.1 = p ∨ ∃ y ∈ entries, y.1 = x.1 := by
  induction entries with
  | nil =>
    cases List.mem_singleton.mp hx
    exact Or.inl rfl
  | cons y rest ih =>
    rw [emplaceBack] at hx
    split_ifs at hx
    · rcases List.mem_cons.mp hx with rfl | hx
      · exact Or.inl rfl
      · exact Or.inr ⟨x, hx, rfl⟩
    · rcases List.mem_cons.mp hx with rfl | hx
      · exact Or.inr ⟨_, List.mem_cons_self, rfl⟩
      · obtain h | ⟨z, hz, h⟩ := ih hx
        · exact Or.inl h
        · exact Or.inr ⟨z, List.mem_cons_of_mem _ hz, h⟩
    · rcases List.mem_cons.mp hx with rfl | hx
      · exact Or.inr ⟨_, List.mem_cons_self, rfl⟩
      · exact Or.inr ⟨x, List.mem_cons_of_mem _ hx, rfl⟩

/-- No entry is empty. -/
theorem filled_emplaceBack (h : ∀ x ∈ entries, x.2 ≠ []) : ∀ x ∈ emplaceBack p race entries, x.2 ≠ [] := by
  induction entries with
  | nil => simp [emplaceBack]
  | cons y rest ih =>
    rw [List.forall_mem_cons] at h
    rw [emplaceBack]
    split_ifs
    · simpa using h
    · exact List.forall_mem_cons.mpr ⟨h.1, ih h.2⟩
    · exact List.forall_mem_cons.mpr ⟨by simp, h.2⟩

/-- One more pair keeps the order. -/
theorem sortedTable_emplaceBack (h : SortedTable entries) : SortedTable (emplaceBack p race entries) := by
  induction entries with
  | nil => exact List.pairwise_singleton _ _
  | cons y rest ih =>
    obtain ⟨hy, hrest⟩ := List.pairwise_cons.mp h
    rw [emplaceBack]
    split_ifs with hlt hgt
    · refine List.pairwise_cons.mpr ⟨fun z hz => ?_, h⟩
      rcases List.mem_cons.mp hz with rfl | hz
      · exact hlt
      · exact InstRacePair.lt_trans hlt (hy z hz)
    · refine List.pairwise_cons.mpr ⟨fun z hz => ?_, ih hrest⟩
      rcases mem_emplaceBack_keys hz with hp | ⟨w, hw, hz⟩
      · rw [hp]
        exact hgt
      · rw [← hz]
        exact hy w hw
    · exact List.pairwise_cons.mpr ⟨hy, hrest⟩

end Table

/-- `InstRaceTable`. -/
structure InstRaceTable where
  /-- `race_table_`. -/
  raceTable : List (InstRacePair × List RuntimeRace)
  sorted : SortedTable raceTable
  filled : ∀ x ∈ raceTable, x.2 ≠ []

namespace InstRaceTable

/-- An empty table. -/
def empty : InstRaceTable := ⟨[], .nil, by simp⟩

/-- `InstRaceTable::addRace`. -/
def addRace (table : InstRaceTable) (first second : Event) : Except Abort InstRaceTable := do
  let instRace ← InstRacePair.build first second
  let runRace ← RuntimeRace.build first second
  return ⟨emplaceBack instRace runRace table.raceTable, sortedTable_emplaceBack table.sorted,
    filled_emplaceBack table.filled⟩

/-- `addRace` on pairs of events, one after the other. -/
def addRaces (table : InstRaceTable) : List (Event × Event) → Except Abort InstRaceTable
  | [] => .ok table
  | p :: ps => do
    let table ← table.addRace p.1 p.2
    table.addRaces ps

/-- The loop of `InstRaceTable::dumpFile` over the races of one entry. -/
def dumpRaces : List RuntimeRace → Except Abort (List Char)
  | [] => .ok []
  | r :: rs => do
    let s ← r.stringfy
    let rest ← dumpRaces rs
    return s ++ '\n' :: rest

/-- The line between the key and its races, without its end. -/
def countText (n : ℕ) : List Char := '-' :: '-' :: '-' :: ' ' :: (decimal n ++ [' ', '-', '-', '-'])

/-- The loop of `InstRaceTable::dumpFile` over the entries. -/
def dumpEntries : List (InstRacePair × List RuntimeRace) → Except Abort (List Char)
  | [] => .ok []
  | (p, rs) :: entries => do
    let s ← p.stringfy
    let races ← dumpRaces rs
    let rest ← dumpEntries entries
    return s ++ '\n' :: (countText rs.length ++ '\n' :: (races ++ rest))

/-- `InstRaceTable::dumpFile`: what it writes. -/
def dumpFile (table : InstRaceTable) : Except Abort (List Char) := dumpEntries table.raceTable

end InstRaceTable

end Schnauzer
