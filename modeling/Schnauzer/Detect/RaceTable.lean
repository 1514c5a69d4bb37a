import Mathlib.Data.List.Sort
import Mathlib.Data.Sym.Sym2
import Schnauzer.Detect.InstRace

/-!
# What the table of races holds

The table does not know in which order the pairs of events come, except for two things: the order of the races under one
key, and the letters of the key, which are those of the pair that came first.

## What is proved

* `headerAt_insertAll`, `racesAt_insertAll` — the key and the races of two instructions.
* `addRaces_ok_iff` — which pairs are added.
* `reportIndependent_iff` — when the report does not depend on the order of the pairs.
-/

namespace Schnauzer

namespace InstRaceTable

variable {entries : List (InstRacePair × List RuntimeRace)} {x y : InstRacePair × List RuntimeRace} {p q : InstRacePair}
  {race : RuntimeRace} {ids : ℕ × ℕ} {ps ps' : List (Event × Event)} {table table' : InstRaceTable}

/-! ### One entry for two instructions -/

/-- The entry for two instructions. -/
def entryAt (entries : List (InstRacePair × List RuntimeRace)) (ids : ℕ × ℕ) :
    Option (InstRacePair × List RuntimeRace) := entries.find? fun x => x.1.ids = ids

/-- The key for two instructions. -/
def headerAt (entries : List (InstRacePair × List RuntimeRace)) (ids : ℕ × ℕ) : Option InstRacePair :=
  (entryAt entries ids).map Prod.fst

/-- The races of two instructions. -/
def racesAt (entries : List (InstRacePair × List RuntimeRace)) (ids : ℕ × ℕ) : List RuntimeRace :=
  ((entryAt entries ids).map Prod.snd).getD []

theorem ids_ne_of_lt (h : p.lt q) : p.ids ≠ q.ids := fun heq => by
  obtain ⟨hno, -⟩ := InstRacePair.not_lt_iff.mpr heq
  exact hno h

/-- The keys are different. -/
theorem eq_of_ids (h : SortedTable entries) (hx : x ∈ entries) (hy : y ∈ entries) (heq : x.1.ids = y.1.ids) :
    x = y := by
  refine List.Pairwise.forall_of_forall_of_flip (R := fun x y => x.1.ids = y.1.ids → x = y) (fun _ _ _ => rfl)
    (h.imp fun hlt heq => absurd heq (ids_ne_of_lt hlt)) (h.imp fun hlt heq => ?_) hx hy heq
  exact absurd heq.symm (ids_ne_of_lt hlt)

theorem entryAt_eq_some (h : SortedTable entries) : entryAt entries ids = some x ↔ x ∈ entries ∧ x.1.ids = ids := by
  constructor
  · intro hx
    exact ⟨List.mem_of_find?_eq_some hx, by simpa using List.find?_some hx⟩
  · rintro ⟨hx, rfl⟩
    cases hy : entryAt entries x.1.ids with
    | none => simpa using List.find?_eq_none.mp hy x hx
    | some y =>
      have hids : y.1.ids = x.1.ids := by simpa using List.find?_some hy
      rw [eq_of_ids h (List.mem_of_find?_eq_some hy) hx hids]

/-- **One more pair** goes to the entry of its instructions, which keeps its key. -/
theorem entryAt_emplaceBack (h : SortedTable entries) : entryAt (emplaceBack p race entries) ids =
    if p.ids = ids then
      some (((entryAt entries ids).map Prod.fst).getD p, ((entryAt entries ids).map Prod.snd).getD [] ++ [race])
    else entryAt entries ids := by
  unfold entryAt
  induction entries with
  | nil =>
    rw [emplaceBack]
    split_ifs with hp <;> simp [hp]
  | cons y rest ih =>
    obtain ⟨hy, hrest⟩ := List.pairwise_cons.mp h
    obtain ⟨q, rs⟩ := y
    rw [emplaceBack]
    by_cases hlt : p.lt q
    · -- a new entry in front of all others
      rw [if_pos hlt]
      split_ifs with hp
      · have hnone : List.find? (fun x => decide (x.1.ids = ids)) ((q, rs) :: rest) = none := by
          refine List.find?_eq_none.mpr fun z hz => ?_
          have hpz : p.lt z.1 := by
            rcases List.mem_cons.mp hz with rfl | hz
            · exact hlt
            · exact InstRacePair.lt_trans hlt (hy z hz)
          simpa [← hp] using (ids_ne_of_lt hpz).symm
        rw [hnone]
        simp [hp]
      · rw [List.find?_cons_of_neg (by simpa using hp)]
    · rw [if_neg hlt]
      by_cases hgt : q.lt p
      · rw [if_pos hgt]
        by_cases hq : q.ids = ids
        · rw [List.find?_cons_of_pos (by simpa using hq), List.find?_cons_of_pos (by simpa using hq),
            if_neg (hq ▸ (ids_ne_of_lt hgt).symm)]
        · rw [List.find?_cons_of_neg (by simpa using hq), List.find?_cons_of_neg (by simpa using hq), ih hrest]
      · rw [if_neg hgt]
        have hids : p.ids = q.ids := InstRacePair.not_lt_iff.mp ⟨hlt, hgt⟩
        by_cases hq : q.ids = ids
        · rw [List.find?_cons_of_pos (by simpa using hq), List.find?_cons_of_pos (by simpa using hq),
            if_pos (hids.trans hq)]
          rfl
        · rw [List.find?_cons_of_neg (by simpa using hq), List.find?_cons_of_neg (by simpa using hq),
            if_neg (hids ▸ hq)]

theorem headerAt_emplaceBack (h : SortedTable entries) : headerAt (emplaceBack p race entries) ids =
    (headerAt entries ids).or (if p.ids = ids then some p else none) := by
  unfold headerAt
  rw [entryAt_emplaceBack h]
  split_ifs
  · cases entryAt entries ids <;> rfl
  · simp

theorem racesAt_emplaceBack (h : SortedTable entries) : racesAt (emplaceBack p race entries) ids =
    racesAt entries ids ++ if p.ids = ids then [race] else [] := by
  unfold racesAt
  rw [entryAt_emplaceBack h]
  split_ifs
  · rfl
  · simp

/-! ### All pairs -/

/-- The key of a pair of events. -/
def keyOf (p : Event × Event) : InstRacePair := .ofEvents p.1 p.2

/-- The race of a pair of events. -/
def raceOf (p : Event × Event) : RuntimeRace := ⟨p.1, p.2⟩

/-- The entries after `addRace` on pairs of events. -/
def insertAll (entries : List (InstRacePair × List RuntimeRace)) (ps : List (Event × Event)) :
    List (InstRacePair × List RuntimeRace) :=
  ps.foldl (fun entries p => emplaceBack (keyOf p) (raceOf p) entries) entries

/-- **The key** of two instructions is that of the first pair. -/
theorem headerAt_insertAll (h : SortedTable entries) : headerAt (insertAll entries ps) ids =
    (headerAt entries ids).or ((ps.find? fun p => (keyOf p).ids = ids).map keyOf) := by
  induction ps generalizing entries with
  | nil => simp [insertAll]
  | cons p ps ih =>
    rw [insertAll, List.foldl_cons, ← insertAll, ih (sortedTable_emplaceBack h), headerAt_emplaceBack h,
      Option.or_assoc]
    by_cases hp : (keyOf p).ids = ids
    · rw [if_pos hp, List.find?_cons_of_pos (by simpa using hp)]
      rfl
    · rw [if_neg hp, List.find?_cons_of_neg (by simpa using hp), Option.none_or]

/-- **The races** of two instructions, in the order of the pairs. -/
theorem racesAt_insertAll (h : SortedTable entries) : racesAt (insertAll entries ps) ids =
    racesAt entries ids ++ (ps.filter fun p => (keyOf p).ids = ids).map raceOf := by
  induction ps generalizing entries with
  | nil => simp [insertAll]
  | cons p ps ih =>
    rw [insertAll, List.foldl_cons, ← insertAll, ih (sortedTable_emplaceBack h), racesAt_emplaceBack h,
      List.append_assoc]
    by_cases hp : (keyOf p).ids = ids
    · rw [if_pos hp, List.filter_cons_of_pos (by simpa using hp)]
      rfl
    · rw [if_neg hp, List.filter_cons_of_neg (by simpa using hp), List.nil_append]

/-- A pair of events that `addRace` accepts. -/
structure RacePair (p : Event × Event) : Prop where
  access : p.1.isAccessEvent
  length : p.1.varLen = 1
  second : p.2.opTy ≠ .create ∧ p.2.opTy ≠ .join
  address : p.1.varAddr = p.2.varAddr

theorem build_ok_iff {p : Event × Event} {k : InstRacePair} : InstRacePair.build p.1 p.2 = .ok k ↔
    (p.1.isAccessEvent ∧ p.1.varLen = 1) ∧ keyOf p = k := by
  rw [← Event.isVarAccessEvent_eq_true, InstRacePair.build, bind_eq_ok]
  constructor
  · rintro ⟨b, hb, h⟩
    cases b with
    | false => cases h
    | true => exact ⟨hb, pure_eq_ok.mp h⟩
  · rintro ⟨hb, h⟩
    exact ⟨true, hb, pure_eq_ok.mpr h⟩

theorem getAddress_eq_ok {e : Event} {a : Addr} :
    e.getAddress = .ok a ↔ (e.opTy ≠ .create ∧ e.opTy ≠ .join) ∧ e.varAddr = a := by
  unfold Event.getAddress
  split_ifs with h
  · simp [h]
  · simp [h]

theorem runtimeRace_build_ok_iff {p : Event × Event} {r : RuntimeRace} : RuntimeRace.build p.1 p.2 = .ok r ↔
    (p.1.opTy ≠ .create ∧ p.1.opTy ≠ .join) ∧ (p.2.opTy ≠ .create ∧ p.2.opTy ≠ .join) ∧
      p.1.varAddr = p.2.varAddr ∧ raceOf p = r := by
  rw [RuntimeRace.build]
  constructor
  · intro h
    obtain ⟨a, ha, h⟩ := bind_eq_ok.mp h
    obtain ⟨b, hb, h⟩ := bind_eq_ok.mp h
    obtain ⟨hfirst, rfl⟩ := getAddress_eq_ok.mp ha
    obtain ⟨hsecond, rfl⟩ := getAddress_eq_ok.mp hb
    split_ifs at h with hne
    exact ⟨hfirst, hsecond, not_not.mp hne, pure_eq_ok.mp h⟩
  · rintro ⟨hfirst, hsecond, heq, rfl⟩
    refine bind_eq_ok.mpr ⟨_, getAddress_eq_ok.mpr ⟨hfirst, rfl⟩, bind_eq_ok.mpr
      ⟨_, getAddress_eq_ok.mpr ⟨hsecond, rfl⟩, ?_⟩⟩
    rw [if_neg (not_not.mpr heq)]
    rfl

/-- `addRace` on one pair. -/
theorem addRace_ok_iff {p : Event × Event} : table.addRace p.1 p.2 = .ok table' ↔
    RacePair p ∧ table'.raceTable = emplaceBack (keyOf p) (raceOf p) table.raceTable := by
  constructor
  · intro h
    obtain ⟨k, hk, h⟩ := bind_eq_ok.mp h
    obtain ⟨r, hr, h⟩ := bind_eq_ok.mp h
    obtain ⟨⟨hacc, hlen⟩, rfl⟩ := build_ok_iff.mp hk
    obtain ⟨-, hsecond, haddr, rfl⟩ := runtimeRace_build_ok_iff.mp hr
    obtain rfl := pure_eq_ok.mp h
    exact ⟨⟨hacc, hlen, hsecond, haddr⟩, rfl⟩
  · rintro ⟨hp, htable⟩
    have hfirst : p.1.opTy ≠ .create ∧ p.1.opTy ≠ .join := by
      have hacc := Event.isAccessEvent_iff.mp hp.access
      constructor <;> intro h <;> simp [h] at hacc
    refine bind_eq_ok.mpr ⟨_, build_ok_iff.mpr ⟨⟨hp.access, hp.length⟩, rfl⟩, bind_eq_ok.mpr
      ⟨_, runtimeRace_build_ok_iff.mpr ⟨hfirst, hp.second, hp.address, rfl⟩, ?_⟩⟩
    obtain ⟨entries, hsorted, hfilled⟩ := table'
    cases htable
    rfl

/-- **All pairs** are added exactly when each is accepted. -/
theorem addRaces_ok_iff : (∃ table', table.addRaces ps = .ok table') ↔ ∀ p ∈ ps, RacePair p := by
  induction ps generalizing table with
  | nil => simp [addRaces]
  | cons p ps ih =>
    rw [List.forall_mem_cons]
    constructor
    · rintro ⟨table', h⟩
      obtain ⟨table₁, h₁, h⟩ := bind_eq_ok.mp h
      exact ⟨(addRace_ok_iff.mp h₁).1, ih.mp ⟨table', h⟩⟩
    · rintro ⟨hp, hps⟩
      obtain ⟨table', h⟩ := (@ih ⟨_, sortedTable_emplaceBack table.sorted, filled_emplaceBack table.filled⟩).mpr hps
      exact ⟨table', bind_eq_ok.mpr ⟨_, addRace_ok_iff.mpr ⟨hp, rfl⟩, h⟩⟩

theorem raceTable_of_addRaces (h : table.addRaces ps = .ok table') :
    table'.raceTable = insertAll table.raceTable ps := by
  induction ps generalizing table with
  | nil =>
    cases h
    rfl
  | cons p ps ih =>
    obtain ⟨table₁, h₁, h⟩ := bind_eq_ok.mp h
    rw [ih h, (addRace_ok_iff.mp h₁).2]
    rfl

/-! ### The order of the pairs -/

/-- The races under one key. -/
def racesUnder (table : InstRaceTable) (p : InstRacePair) : List RuntimeRace :=
  ((table.raceTable.find? fun x => x.1 = p).map Prod.snd).getD []

/-- The letters of the key are the operations of the race. -/
def LettersFit (p : InstRacePair) (r : RuntimeRace) : Prop :=
  s((r.firstEvt.instUniqueId, r.firstEvt.opLetter), (r.secondEvt.instUniqueId, r.secondEvt.opLetter)) =
    s((p.firstInstId, p.firstOp), (p.secondInstId, p.secondOp))

/-- The report on some pairs of events does not depend on their order. -/
structure ReportIndependent (ps : List (Event × Event)) : Prop where
  /-- Each order of the pairs gives the same headers, with the same races under each. -/
  groups : ∀ ps₁ ps₂ table₁ table₂, ps₁.Perm ps → ps₂.Perm ps → empty.addRaces ps₁ = .ok table₁ →
    empty.addRaces ps₂ = .ok table₂ → table₁.raceTable.map Prod.fst = table₂.raceTable.map Prod.fst ∧
      ∀ p, (table₁.racesUnder p).Perm (table₂.racesUnder p)
  /-- A pair is under one header. -/
  once : ∀ ps₁ table, ps₁.Perm ps → empty.addRaces ps₁ = .ok table → ∀ p ∈ ps,
    ∃! x, x ∈ table.raceTable ∧ raceOf p ∈ x.2
  /-- The letters of a header are the operations of all races under it. -/
  letters : ∀ ps₁ table, ps₁.Perm ps → empty.addRaces ps₁ = .ok table → ∀ x ∈ table.raceTable, ∀ r ∈ x.2,
    LettersFit x.1 r

/-- A header fits the pair of events that it is made of. -/
theorem lettersFit_keyOf (p : Event × Event) : LettersFit (keyOf p) (raceOf p) := by
  unfold LettersFit keyOf raceOf InstRacePair.ofEvents
  split_ifs
  · exact Sym2.eq_swap
  · rfl

/-- The entries of the table. -/
theorem mem_raceTable : x ∈ table.raceTable ↔ headerAt table.raceTable x.1.ids = some x.1 ∧
    racesAt table.raceTable x.1.ids = x.2 := by
  unfold headerAt racesAt
  constructor
  · intro hx
    rw [(entryAt_eq_some table.sorted).mpr ⟨hx, rfl⟩]
    exact ⟨rfl, rfl⟩
  · rintro ⟨hheader, hraces⟩
    obtain ⟨y, hy, hkey⟩ := Option.map_eq_some_iff.mp hheader
    rw [hy] at hraces
    obtain rfl : y = x := Prod.ext hkey hraces
    exact ((entryAt_eq_some table.sorted).mp hy).1

section Order

variable (h : empty.addRaces ps = .ok table)

include h

theorem headerAt_of_addRaces : headerAt table.raceTable ids =
    (ps.find? fun p => (keyOf p).ids = ids).map keyOf := by
  rw [raceTable_of_addRaces h, headerAt_insertAll empty.sorted]
  rfl

theorem racesAt_of_addRaces : racesAt table.raceTable ids =
    (ps.filter fun p => (keyOf p).ids = ids).map raceOf := by
  rw [raceTable_of_addRaces h, racesAt_insertAll empty.sorted]
  rfl

/-- The races of an entry are those of the pairs of its instructions. -/
theorem mem_races (hx : x ∈ table.raceTable) {r : RuntimeRace} :
    r ∈ x.2 ↔ ∃ p ∈ ps, (keyOf p).ids = x.1.ids ∧ raceOf p = r := by
  rw [← (mem_raceTable.mp hx).2, racesAt_of_addRaces h]
  simp [and_assoc]

/-- A pair of events has an entry. -/
theorem exists_entry {p : Event × Event} (hp : p ∈ ps) :
    ∃ x ∈ table.raceTable, x.1.ids = (keyOf p).ids ∧ raceOf p ∈ x.2 := by
  obtain ⟨q, hq⟩ : ∃ q, (ps.find? fun q => (keyOf q).ids = (keyOf p).ids) = some q := by
    rw [← Option.isSome_iff_exists, List.find?_isSome]
    exact ⟨p, hp, by simp⟩
  have hheader : headerAt table.raceTable (keyOf p).ids = some (keyOf q) := by
    rw [headerAt_of_addRaces h, hq]
    rfl
  have hids : (keyOf q).ids = (keyOf p).ids := by simpa using List.find?_some hq
  have hx : (keyOf q, racesAt table.raceTable (keyOf p).ids) ∈ table.raceTable := by
    rw [mem_raceTable, hids]
    exact ⟨hheader, rfl⟩
  exact ⟨_, hx, hids, (mem_races h hx).mpr ⟨p, hp, hids.symm, rfl⟩⟩

/-- The ids of a race tell its entry. -/
theorem ids_of_mem (hx : x ∈ table.raceTable) {p : Event × Event} (hr : raceOf p ∈ x.2) :
    x.1.ids = (keyOf p).ids := by
  obtain ⟨q, -, hids, heq⟩ := (mem_races h hx).mp hr
  obtain rfl : q = p := Prod.ext (congrArg RuntimeRace.firstEvt heq) (congrArg RuntimeRace.secondEvt heq)
  exact hids.symm

end Order

/-- A key of the table. -/
theorem mem_headers : p ∈ table.raceTable.map Prod.fst ↔ headerAt table.raceTable p.ids = some p := by
  rw [List.mem_map]
  constructor
  · rintro ⟨x, hx, rfl⟩
    exact (mem_raceTable.mp hx).1
  · intro hp
    exact ⟨(p, racesAt table.raceTable p.ids), mem_raceTable.mpr ⟨hp, rfl⟩, rfl⟩

theorem racesUnder_eq : table.racesUnder p =
    if headerAt table.raceTable p.ids = some p then racesAt table.raceTable p.ids else [] := by
  have hmem : ∀ x, (table.raceTable.find? fun x => x.1 = p) = some x → x ∈ table.raceTable ∧ x.1 = p := fun x hx =>
    ⟨List.mem_of_find?_eq_some hx, by simpa using List.find?_some hx⟩
  unfold racesUnder
  cases hfind : table.raceTable.find? fun x => x.1 = p with
  | some x =>
    obtain ⟨hx, rfl⟩ := hmem x hfind
    obtain ⟨hheader, hraces⟩ := mem_raceTable.mp hx
    rw [if_pos hheader, hraces]
    rfl
  | none =>
    rw [if_neg]
    · rfl
    · intro hheader
      obtain ⟨x, hx, hkey⟩ := List.mem_map.mp (mem_headers.mpr hheader)
      simpa [hkey] using List.find?_eq_none.mp hfind x hx

/-- The keys of a table are sorted, so that they are known from their set. -/
theorem headers_eq (h : ∀ p, headerAt table.raceTable p.ids = some p ↔ headerAt table'.raceTable p.ids = some p) :
    table.raceTable.map Prod.fst = table'.raceTable.map Prod.fst := by
  have hsorted : ∀ t : InstRaceTable, (t.raceTable.map Prod.fst).Pairwise InstRacePair.lt := fun t =>
    List.pairwise_map.mpr t.sorted
  have hnodup : ∀ t : InstRaceTable, (t.raceTable.map Prod.fst).Nodup := fun t =>
    (hsorted t).imp fun hlt heq => ids_ne_of_lt hlt (congrArg InstRacePair.ids heq)
  refine List.Perm.eq_of_pairwise (fun p q _ _ hpq hqp => ?_) (hsorted table) (hsorted table') ?_
  · exact absurd (InstRacePair.lt_trans hpq hqp) InstRacePair.lt_irrefl
  · refine (List.perm_ext_iff_of_nodup (hnodup _) (hnodup _)).mpr fun p => ?_
    rw [mem_headers, mem_headers]
    exact h p

/-- **When the report does not depend on the order of the pairs**: any two pairs of the same two instructions have the
same letters at them. -/
theorem reportIndependent_iff (hps : ∀ p ∈ ps, RacePair p) : ReportIndependent ps ↔
    ∀ p ∈ ps, ∀ q ∈ ps, (keyOf p).ids = (keyOf q).ids → keyOf p = keyOf q := by
  constructor
  · intro hind p hp q hq hids
    -- the one pair first, or the other
    have hfirst : ∀ p ∈ ps, ∃ table, empty.addRaces (p :: ps.erase p) = .ok table ∧
        headerAt table.raceTable (keyOf p).ids = some (keyOf p) := by
      intro p hp
      obtain ⟨table, h⟩ := (@addRaces_ok_iff (p :: ps.erase p) empty).mpr fun q hq =>
        hps q ((List.perm_cons_erase hp).mem_iff.mpr hq)
      refine ⟨table, h, ?_⟩
      rw [headerAt_of_addRaces h, List.find?_cons_of_pos (by simp)]
      rfl
    obtain ⟨table₁, h₁, hheader₁⟩ := hfirst p hp
    obtain ⟨table₂, h₂, hheader₂⟩ := hfirst q hq
    obtain ⟨hheaders, -⟩ := hind.groups _ _ _ _ (List.perm_cons_erase hp).symm (List.perm_cons_erase hq).symm h₁ h₂
    have hmem := mem_headers.mpr hheader₁
    rw [hheaders, mem_headers, hids, hheader₂] at hmem
    exact (Option.some.inj hmem).symm
  · intro hagree
    -- the key of two instructions is that of any of their pairs
    have hheader : ∀ ps₁ table, ps₁.Perm ps → empty.addRaces ps₁ = .ok table → ∀ k,
        headerAt table.raceTable k.ids = some k ↔ ∃ p ∈ ps, keyOf p = k := by
      intro ps₁ table hperm h k
      rw [headerAt_of_addRaces h]
      constructor
      · intro hk
        obtain ⟨p, hp, hkey⟩ := Option.map_eq_some_iff.mp hk
        exact ⟨p, hperm.mem_iff.mp (List.mem_of_find?_eq_some hp), hkey⟩
      · rintro ⟨p, hp, rfl⟩
        obtain ⟨q, hq⟩ : ∃ q, (ps₁.find? fun q => (keyOf q).ids = (keyOf p).ids) = some q := by
          rw [← Option.isSome_iff_exists, List.find?_isSome]
          exact ⟨p, hperm.mem_iff.mpr hp, by simp⟩
        rw [hq, Option.map_some, hagree q (hperm.mem_iff.mp (List.mem_of_find?_eq_some hq)) p hp
          (by simpa using List.find?_some hq)]
    refine ⟨fun ps₁ ps₂ table₁ table₂ hperm₁ hperm₂ h₁ h₂ => ?_, fun ps₁ table hperm h p hp => ?_,
      fun ps₁ table hperm h x hx r hr => ?_⟩
    · have hsame : ∀ k, headerAt table₁.raceTable k.ids = some k ↔ headerAt table₂.raceTable k.ids = some k := by
        intro k
        rw [hheader ps₁ table₁ hperm₁ h₁, hheader ps₂ table₂ hperm₂ h₂]
      refine ⟨headers_eq hsame, fun k => ?_⟩
      rw [racesUnder_eq, racesUnder_eq]
      by_cases hk : headerAt table₁.raceTable k.ids = some k
      · rw [if_pos hk, if_pos ((hsame k).mp hk), racesAt_of_addRaces h₁, racesAt_of_addRaces h₂]
        exact ((hperm₁.trans hperm₂.symm).filter _).map _
      · rw [if_neg hk, if_neg fun h => hk ((hsame k).mpr h)]
    · obtain ⟨x, hx, -, hr⟩ := exists_entry h (hperm.mem_iff.mpr hp)
      refine ⟨x, ⟨hx, hr⟩, ?_⟩
      rintro y ⟨hy, hr'⟩
      exact eq_of_ids table.sorted hy hx ((ids_of_mem h hy hr').trans (ids_of_mem h hx hr).symm)
    · obtain ⟨p, hp, hids, rfl⟩ := (mem_races h hx).mp hr
      obtain ⟨q, hq, hkey⟩ := (hheader ps₁ table hperm h x.1).mp (mem_raceTable.mp hx).1
      have heq := hagree p (hperm.mem_iff.mp hp) q hq (hids.trans (congrArg InstRacePair.ids hkey.symm))
      rw [← hkey, ← heq]
      exact lettersFit_keyOf p

/-- A `memcpy` with id 5 loads byte 8 in thread 1 and stores byte 16, which thread 2 stores to with id 7. -/
def memcpyPairs : List (Event × Event) :=
  [(.makeVarAccessEvent 5 0 1 .ld 8, .makeVarAccessEvent 7 2 2 .st 8),
    (.makeVarAccessEvent 5 1 1 .st 16, .makeVarAccessEvent 7 3 2 .st 16)]

theorem racePair_of_memcpyPairs : ∀ p ∈ memcpyPairs, RacePair p := by
  intro p hp
  simp only [memcpyPairs, List.mem_cons, List.not_mem_nil, or_false] at hp
  rcases hp with rfl | rfl
  · exact ⟨rfl, rfl, by decide, rfl⟩
  · exact ⟨rfl, rfl, by decide, rfl⟩

theorem reportIndependent_iff_memcpyPairs : ReportIndependent memcpyPairs ↔
    ∀ p ∈ memcpyPairs, ∀ q ∈ memcpyPairs, (keyOf p).ids = (keyOf q).ids → keyOf p = keyOf q :=
  reportIndependent_iff racePair_of_memcpyPairs

/-- The header of the pairs of the `memcpy` is `5:r 7:w` or `5:w 7:w`, as the one or the other pair comes first. -/
theorem memcpy_header : (∃ table₁ table₂, empty.addRaces memcpyPairs = .ok table₁ ∧
      empty.addRaces memcpyPairs.reverse = .ok table₂ ∧
      table₁.raceTable.map (fun x => x.1.text) = [['5', ':', 'r', ' ', '7', ':', 'w']] ∧
      table₂.raceTable.map (fun x => x.1.text) = [['5', ':', 'w', ' ', '7', ':', 'w']]) ∧
    ¬ ReportIndependent memcpyPairs := by
  obtain ⟨table₁, h₁⟩ := (@addRaces_ok_iff memcpyPairs empty).mpr racePair_of_memcpyPairs
  obtain ⟨table₂, h₂⟩ := (@addRaces_ok_iff memcpyPairs.reverse empty).mpr fun p hp =>
    racePair_of_memcpyPairs p (List.mem_reverse.mp hp)
  have htext₁ : table₁.raceTable.map (fun x => x.1.text) = [['5', ':', 'r', ' ', '7', ':', 'w']] := by
    rw [raceTable_of_addRaces h₁]
    rfl
  have htext₂ : table₂.raceTable.map (fun x => x.1.text) = [['5', ':', 'w', ' ', '7', ':', 'w']] := by
    rw [raceTable_of_addRaces h₂]
    rfl
  refine ⟨⟨table₁, table₂, h₁, h₂, htext₁, htext₂⟩, fun hind => ?_⟩
  obtain ⟨hheaders, -⟩ := hind.groups _ _ _ _ (List.Perm.refl _) (List.reverse_perm _) h₁ h₂
  have heq := congrArg (List.map InstRacePair.text) hheaders
  simp only [List.map_map, Function.comp_def, htext₁, htext₂] at heq
  exact absurd heq (by decide)

end InstRaceTable

end Schnauzer
