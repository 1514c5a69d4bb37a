import Schnauzer.Detect.RaceFile

/-!
# What the script finds in a race file

`RaceFile.loadRuntimeRace` keeps the races of the keys it is asked for, and `showSrcInfo` looks them up in a
`defaultdict`.

## What is proved

* `loadRuntimeRace_targets` — the dictionary has the groups of the targets.
* `mem_lookupRaces_iff` — **a lookup** gives the races of the pairs of events of the two instructions.
-/

namespace Schnauzer

namespace Scripts

/-- `run_races[inst_race]`. -/
def lookupRaces (runRaces : RunRaces) (instRace : InstRace) : List RuntimeRace :=
  ((runRaces.find? fun x => x.1.eq instRace).map Prod.snd).getD []

variable {runRaces : RunRaces} {k l : InstRace} {r : RuntimeRace} {targets : List InstRace}

/-- Two equal keys are in the same lists. -/
theorem any_eq_congr (h : k.eq l) : targets.any (k.eq ·) = targets.any (l.eq ·) := by
  refine congrArg targets.any (funext fun n => ?_)
  rw [Bool.eq_iff_iff]
  exact InstRace.eq_trans_iff h

/-- The races that are looked up, when no two keys are equal. -/
theorem lookupRaces_of_mem (hkeys : (runRaces.map Prod.fst).Pairwise fun k l => l.eq k = false)
    {x : InstRace × List RuntimeRace} (hx : x ∈ runRaces) (hk : x.1.eq k) : lookupRaces runRaces k = x.2 := by
  unfold lookupRaces
  induction runRaces with
  | nil => cases hx
  | cons y rest ih =>
    rw [List.map_cons, List.pairwise_cons] at hkeys
    rcases List.mem_cons.mp hx with rfl | hx
    · rw [List.find?_cons_of_pos (by exact hk)]
      rfl
    · have hy : y.1.eq k = false := by
        have hne := hkeys.1 x.1 (List.mem_map_of_mem hx)
        rw [Bool.eq_false_iff] at hne ⊢
        intro hyk
        rw [InstRace.eq_comm] at hyk
        exact hne ((InstRace.eq_trans_iff hk).mpr hyk)
      rw [List.find?_cons_of_neg (by simp [hy])]
      exact ih hkeys.2 hx

theorem mem_lookupRaces (hkeys : (runRaces.map Prod.fst).Pairwise fun k l => l.eq k = false) :
    r ∈ lookupRaces runRaces k ↔ ∃ x ∈ runRaces, x.1.eq k ∧ r ∈ x.2 := by
  constructor
  · intro h
    unfold lookupRaces at h
    cases hfind : runRaces.find? fun x => x.1.eq k with
    | none =>
      rw [hfind] at h
      cases h
    | some x =>
      rw [hfind] at h
      exact ⟨x, List.mem_of_find?_eq_some hfind, by simpa using List.find?_some hfind, h⟩
  · rintro ⟨x, hx, hk, hr⟩
    rwa [lookupRaces_of_mem hkeys hx hk]

/-- The lines of a key that is no target are skipped. -/
theorem loadRuns_skip (htarget : targets.any (k.eq ·) = false) {num : ℕ} {ls : List Str} :
    loadRuns targets k num ls runRaces = (skipLines num ls).map fun ls => (ls, runRaces) := by
  induction num generalizing ls with
  | zero => rfl
  | succ num ih =>
    cases ls with
    | nil => rfl
    | cons line ls => rw [loadRuns, if_neg (by simp [htarget]), ih, skipLines]

end Scripts

namespace InstRaceTable

open Text

variable {table : InstRaceTable} {text : List Char} {targets : List Scripts.InstRace} {k : Scripts.InstRace}
  {ps : List (Event × Event)}

/-! ### The dictionary -/

section Groups

variable {entries : List (InstRacePair × List RuntimeRace)} {runRaces : Scripts.RunRaces}

/-- The groups of the targets, as they are read. -/
def targeted (targets : List Scripts.InstRace) (entries : List (InstRacePair × List RuntimeRace)) : Scripts.RunRaces :=
  (entries.filter fun x => targets.any ((readKey x.1).eq ·)).map fun x => (readKey x.1, x.2.map readRace)

theorem loadRuntimeRace_groups_of_targets (hsorted : SortedTable entries) (hfilled : ∀ x ∈ entries, x.2 ≠ [])
    (hno : ∀ x ∈ entries, ∀ y ∈ runRaces, y.1.eq (readKey x.1) = false) :
    Scripts.loadRuntimeRaceFrom targets (entries.flatMap groupLines) runRaces =
      some (runRaces ++ targeted targets entries) := by
  induction entries generalizing runRaces with
  | nil => simp [Scripts.loadRuntimeRaceFrom, targeted]
  | cons x entries ih =>
    have hnew := readKey_ne hsorted
    rw [List.forall_mem_cons] at hfilled hno
    rw [List.flatMap_cons, groupLines, List.cons_append, List.cons_append]
    by_cases htarget : targets.any ((readKey x.1).eq ·)
    · rw [Scripts.loadRuntimeRaceFrom_group parse_text firstNumber_countText
        (by rw [number_decimal]; exact loadRuns_group hfilled.1 hno.1 readKey_eq_self htarget),
        ih (List.pairwise_cons.mp hsorted).2 hfilled.2 fun y hy z hz => ?_, List.append_assoc, targeted, targeted,
        List.filter_cons_of_pos (by exact htarget)]
      · rfl
      · rcases List.mem_append.mp hz with hz | hz
        · exact hno.2 y hy z hz
        · cases List.mem_singleton.mp hz
          exact hnew y hy
    · have hskip : Scripts.skipLines x.2.length ((x.2.map fun r => r.text ++ ['\n']) ++ entries.flatMap groupLines) =
          some (entries.flatMap groupLines) := by
        rw [← List.length_map (fun r : RuntimeRace => r.text ++ ['\n'])]
        exact skipLines_append _ _
      rw [Scripts.loadRuntimeRaceFrom_group parse_text firstNumber_countText
        (by rw [number_decimal, Scripts.loadRuns_skip (Bool.eq_false_of_not_eq_true htarget), hskip]; rfl),
        ih (List.pairwise_cons.mp hsorted).2 hfilled.2 hno.2, targeted, targeted,
        List.filter_cons_of_neg (by exact htarget)]

end Groups

/-- **The file, for any targets.** -/
theorem loadRuntimeRace_targets (h : table.dumpFile = .ok text) :
    Scripts.loadRuntimeRace targets text = some (targeted targets table.raceTable) := by
  rw [Scripts.loadRuntimeRace, lines_dumpEntries h, loadRuntimeRace_groups_of_targets table.sorted table.filled (by simp),
    List.nil_append]

theorem targeted_keys : ((targeted targets table.raceTable).map Prod.fst).Pairwise fun k l => l.eq k = false := by
  have hsub : ((targeted targets table.raceTable).map Prod.fst).Sublist table.readKeys := by
    rw [targeted, List.map_map]
    exact List.filter_sublist.map _
  exact readKeys_pairwise.sublist hsub

/-- **A lookup** gives the races of the pairs of events whose instructions are those of the key, if it is a target. -/
theorem mem_lookupRaces_iff (hps : empty.addRaces ps = .ok table) {r : Scripts.RuntimeRace} :
    r ∈ Scripts.lookupRaces (targeted targets table.raceTable) k ↔
      targets.any (k.eq ·) ∧ ∃ q ∈ ps, (readKey (keyOf q)).eq k ∧ readRace (raceOf q) = r := by
  rw [Scripts.mem_lookupRaces targeted_keys]
  constructor
  · rintro ⟨y, hy, hk, hr⟩
    obtain ⟨x, hx, rfl⟩ := List.mem_map.mp hy
    obtain ⟨hx, htarget⟩ := List.mem_filter.mp hx
    obtain ⟨race, hrace, rfl⟩ := List.mem_map.mp hr
    obtain ⟨q, hq, hids, rfl⟩ := (mem_races hps hx).mp hrace
    refine ⟨Scripts.any_eq_congr hk ▸ htarget, q, hq, ?_, rfl⟩
    have hsame : (readKey (keyOf q)).eq (readKey x.1) := by
      rw [readKey_eq_iff]
      exact congrArg (fun ids : ℕ × ℕ => s(ids.1, ids.2)) hids
    exact (Scripts.InstRace.eq_trans_iff hsame).mpr hk
  · rintro ⟨htarget, q, hq, hk, rfl⟩
    obtain ⟨x, hx, hids, hrace⟩ := exists_entry hps hq
    have hsame : (readKey x.1).eq (readKey (keyOf q)) := by
      rw [readKey_eq_iff]
      exact congrArg (fun ids : ℕ × ℕ => s(ids.1, ids.2)) hids
    have hxk : (readKey x.1).eq k := (Scripts.InstRace.eq_trans_iff hsame).mpr hk
    refine ⟨(readKey x.1, x.2.map readRace), List.mem_map.mpr ⟨x, List.mem_filter.mpr ⟨hx, ?_⟩, rfl⟩, hxk,
      List.mem_map_of_mem hrace⟩
    rwa [Scripts.any_eq_congr hxk]

/-- No race is found twice when no two pairs are read as the same race. -/
theorem nodup_lookupRaces (hps : empty.addRaces ps = .ok table) (hnodup : (ps.map fun q => readRace (raceOf q)).Nodup) :
    (Scripts.lookupRaces (targeted targets table.raceTable) k).Nodup := by
  unfold Scripts.lookupRaces
  cases hfind : (targeted targets table.raceTable).find? fun x => x.1.eq k with
  | none => exact List.nodup_nil
  | some y =>
    obtain ⟨x, hx, rfl⟩ := List.mem_map.mp (List.mem_of_find?_eq_some hfind)
    have hraces := (mem_raceTable.mp (List.mem_filter.mp hx).1).2
    rw [racesAt_of_addRaces hps] at hraces
    refine List.Nodup.sublist ?_ hnodup
    rw [Option.map_some, Option.getD_some, ← hraces, List.map_map]
    exact List.filter_sublist.map _

end InstRaceTable

end Schnauzer
