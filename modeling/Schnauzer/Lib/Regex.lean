import Mathlib.Data.List.TakeWhile
import Mathlib.Tactic.SplitIfs

/-!
# Regular expressions that are sequences

A regular expression that is a sequence of classes of characters, each of them once or repeated, and some of them a
group. A match is searched as ECMAScript does: at the first place where there is one, and there with the longest
repetitions first, trying shorter ones when what follows does not match.

## What is proved

* `search_sound` — what has been found is there, and matches.
* `matchHere_run`, `search_of_prefix` — a repetition that is followed by something else takes all it can.
* `findAll_run` — the runs of a class, one after the other.
-/

namespace Regex

universe u

/-- How often a class is repeated. -/
inductive Rep where
  | one
  /-- `*`. -/
  | star
  /-- `+`. -/
  | plus
  deriving DecidableEq

/-- A class in a sequence. -/
structure Item (α : Type u) where
  /-- The characters of the class. -/
  cls : α → Bool
  rep : Rep
  /-- It is a group. -/
  group : Bool

/-- A match. -/
structure Match (α : Type u) where
  /-- What has been matched. -/
  str : List α
  /-- Its groups. -/
  groups : List (List α)
  /-- What is behind it. -/
  suffix : List α

variable {α : Type u}

/-- What a repetition may take, the longest first. -/
def Item.splits (it : Item α) (s : List α) : List (List α × List α) :=
  let n := (s.takeWhile it.cls).length
  match it.rep with
  | .one => if 0 < n then [s.splitAt 1] else []
  | .star => (List.range (n + 1)).reverse.map fun k => s.splitAt k
  | .plus => (List.range n).reverse.map fun k => s.splitAt (k + 1)

/-- A match at the beginning. -/
def matchHere : List (Item α) → List α → Option (Match α)
  | [], s => some ⟨[], [], s⟩
  | it :: its, s => (it.splits s).findSome? fun p =>
    (matchHere its p.2).map fun m => ⟨p.1 ++ m.str, if it.group then p.1 :: m.groups else m.groups, m.suffix⟩

/-- `regex_search`. -/
def search (its : List (Item α)) : List α → Option (Match α)
  | [] => matchHere its []
  | c :: s =>
    match matchHere its (c :: s) with
    | some m => some m
    | none => search its s

/-- The matches that `regex_iterator` finds, `n` at most, for an expression without empty matches. -/
def findAll (its : List (Item α)) : ℕ → List α → List (List α)
  | 0, _ => []
  | n + 1, s =>
    match search its s with
    | some m => m.str :: findAll its n m.suffix
    | none => []

/-! ### What a match is -/

/-- A piece of text that an item takes. -/
structure Item.Takes (it : Item α) (w : List α) : Prop where
  cls : ∀ c ∈ w, it.cls c
  one : it.rep = .one → w.length = 1
  plus : it.rep = .plus → w ≠ []

/-- A text that the expression matches. -/
inductive Matches : List (Item α) → List α → Prop where
  | nil : Matches [] []
  | cons {it : Item α} {its : List (Item α)} {w v : List α} (hw : it.Takes w) (hv : Matches its v) :
      Matches (it :: its) (w ++ v)

variable {it : Item α} {its : List (Item α)} {s t w : List α} {m : Match α}

theorem take_of_le_takeWhile {p : α → Bool} {k : ℕ} (hk : k ≤ (s.takeWhile p).length) :
    ∀ c ∈ s.take k, p c := by
  intro c hc
  have hpre : s.take k <+: s.takeWhile p := by
    have h := List.take_prefix_take_left (l := s) hk
    rwa [← List.prefix_iff_eq_take.mp (List.takeWhile_prefix p)] at h
  exact List.mem_takeWhile_imp (hpre.subset hc)

theorem mem_splits {q : List α × List α} (h : q ∈ it.splits s) : q.1 ++ q.2 = s ∧ it.Takes q.1 := by
  unfold Item.splits at h
  dsimp only at h
  have hlen : (s.takeWhile it.cls).length ≤ s.length := (List.takeWhile_prefix _).length_le
  cases hrep : it.rep with
  | one =>
    rw [hrep] at h
    dsimp only at h
    split_ifs at h with hpos
    · obtain rfl := List.mem_singleton.mp h
      rw [List.splitAt_eq]
      refine ⟨List.take_append_drop 1 s, take_of_le_takeWhile hpos, fun _ => ?_, fun hp => ?_⟩
      · rw [List.length_take]
        omega
      · rw [hrep] at hp
        cases hp
    · cases h
  | star =>
    rw [hrep] at h
    obtain ⟨k, hk, rfl⟩ := List.mem_map.mp h
    rw [List.mem_reverse, List.mem_range] at hk
    rw [List.splitAt_eq]
    refine ⟨List.take_append_drop k s, take_of_le_takeWhile (Nat.le_of_lt_succ hk), fun ho => ?_, fun hp => ?_⟩
    · rw [hrep] at ho
      cases ho
    · rw [hrep] at hp
      cases hp
  | plus =>
    rw [hrep] at h
    obtain ⟨k, hk, rfl⟩ := List.mem_map.mp h
    rw [List.mem_reverse, List.mem_range] at hk
    rw [List.splitAt_eq]
    refine ⟨List.take_append_drop (k + 1) s, take_of_le_takeWhile hk, fun ho => ?_, fun _ => ?_⟩
    · rw [hrep] at ho
      cases ho
    · rw [Ne, ← List.length_eq_zero_iff, List.length_take]
      omega

/-- **A match at the beginning** is there. -/
theorem matchHere_sound (h : matchHere its s = some m) : m.str ++ m.suffix = s ∧ Matches its m.str := by
  induction its generalizing s m with
  | nil =>
    cases h
    exact ⟨rfl, .nil⟩
  | cons it its ih =>
    rw [matchHere] at h
    obtain ⟨q, hq, hm⟩ := List.exists_of_findSome?_eq_some h
    obtain ⟨m', hm', rfl⟩ := Option.map_eq_some_iff.mp hm
    obtain ⟨hsplit, htakes⟩ := mem_splits hq
    obtain ⟨hrest, hmatch⟩ := ih hm'
    exact ⟨by rw [List.append_assoc, hrest, hsplit], .cons htakes hmatch⟩

/-- **A match that has been found** is there. -/
theorem search_sound (h : search its s = some m) :
    ∃ pre, pre ++ (m.str ++ m.suffix) = s ∧ Matches its m.str := by
  induction s with
  | nil => exact ⟨[], matchHere_sound h⟩
  | cons c s ih =>
    rw [search] at h
    split at h
    next m' heq =>
      cases h
      exact ⟨[], matchHere_sound heq⟩
    next =>
      obtain ⟨pre, hpre, hmatch⟩ := ih h
      exact ⟨c :: pre, by rw [List.cons_append, hpre], hmatch⟩

/-! ### What is found -/

/-- A run of a class. -/
theorem takeWhile_run {p : α → Bool} (hw : ∀ c ∈ w, p c) (ht : ∀ c ∈ t.head?, p c = false) :
    (w ++ t).takeWhile p = w := by
  rw [List.takeWhile_append_of_pos hw]
  cases t with
  | nil => simp
  | cons c t =>
    have hc : p c = false := ht c rfl
    simp [hc]

/-- **A repetition** takes the whole run, if what follows then matches. -/
theorem matchHere_run (hrep : it.rep ≠ .one) (hw : ∀ c ∈ w, it.cls c) (hne : it.rep = .plus → w ≠ [])
    (ht : ∀ c ∈ t.head?, it.cls c = false) (hm : matchHere its t = some m) :
    matchHere (it :: its) (w ++ t) =
      some ⟨w ++ m.str, if it.group then w :: m.groups else m.groups, m.suffix⟩ := by
  have hfirst : ∃ qs, it.splits (w ++ t) = (w, t) :: qs := by
    unfold Item.splits
    dsimp only
    rw [takeWhile_run hw ht]
    have hsplit : (w ++ t).splitAt w.length = (w, t) := by
      rw [List.splitAt_eq, List.take_left, List.drop_left]
    cases hr : it.rep with
    | one => exact absurd hr hrep
    | star =>
      dsimp only
      rw [List.range_succ, List.reverse_append, List.reverse_singleton, List.singleton_append, List.map_cons, hsplit]
      exact ⟨_, rfl⟩
    | plus =>
      obtain ⟨n, hn⟩ := Nat.exists_eq_succ_of_ne_zero (mt List.length_eq_zero_iff.mp (hne hr))
      dsimp only
      rw [hn, List.range_succ, List.reverse_append, List.reverse_singleton, List.singleton_append, List.map_cons,
        ← Nat.succ_eq_add_one, ← hn, hsplit]
      exact ⟨_, rfl⟩
  obtain ⟨qs, hqs⟩ := hfirst
  rw [matchHere, hqs, List.findSome?_cons, hm]
  rfl

/-- One character. -/
theorem matchHere_one {c : α} (hrep : it.rep = .one) (hc : it.cls c) (hm : matchHere its t = some m) :
    matchHere (it :: its) (c :: t) =
      some ⟨c :: m.str, if it.group then [c] :: m.groups else m.groups, m.suffix⟩ := by
  have hsplits : it.splits (c :: t) = [([c], t)] := by
    simp [Item.splits, hrep, hc, List.splitAt_eq]
  rw [matchHere, hsplits, List.findSome?_cons, hm]
  rfl

/-- A character that the expression does not begin with. -/
theorem search_cons_of_not {c : α} (hrep : it.rep ≠ .star) (hc : it.cls c = false) :
    search (it :: its) (c :: s) = search (it :: its) s := by
  have hsplits : it.splits (c :: s) = [] := by
    unfold Item.splits
    cases hr : it.rep with
    | one => simp [hc]
    | star => exact absurd hr hrep
    | plus => simp [hc]
  rw [search, matchHere, hsplits, List.findSome?_nil]

/-- A match at the beginning is the one that is found. -/
theorem search_of_matchHere (h : matchHere its s = some m) : search its s = some m := by
  cases s with
  | nil => exact h
  | cons c s => rw [search, h]

/-- **The first place**: behind characters that the expression does not begin with. -/
theorem search_of_prefix (hrep : it.rep ≠ .star) (hw : ∀ c ∈ w, it.cls c = false)
    (hm : matchHere (it :: its) s = some m) : search (it :: its) (w ++ s) = some m := by
  induction w with
  | nil => exact search_of_matchHere hm
  | cons c w ih =>
    rw [List.forall_mem_cons] at hw
    rw [List.cons_append, search_cons_of_not hrep hw.1, ih hw.2]

/-- Nothing is found in a text without characters of the class. -/
theorem search_eq_none (hrep : it.rep ≠ .star) (hw : ∀ c ∈ w, it.cls c = false) :
    search (it :: its) w = none := by
  induction w with
  | nil =>
    have hsplits : it.splits [] = [] := by
      unfold Item.splits
      cases hr : it.rep with
      | one => simp
      | star => exact absurd hr hrep
      | plus => simp
    rw [search, matchHere, hsplits, List.findSome?_nil]
  | cons c w ih =>
    rw [List.forall_mem_cons] at hw
    rw [search_cons_of_not hrep hw.1, ih hw.2]

/-- **The runs of a class**: the next one, and those behind it. -/
theorem findAll_run {lead run rest : List α} {n : ℕ} (hrep : it.rep = .plus) (hlead : ∀ c ∈ lead, it.cls c = false)
    (hrun : ∀ c ∈ run, it.cls c) (hne : run ≠ []) (hrest : ∀ c ∈ rest.head?, it.cls c = false) :
    findAll [it] (n + 1) (lead ++ (run ++ rest)) = run :: findAll [it] n rest := by
  have hend : matchHere [] rest = some ⟨[], [], rest⟩ := rfl
  have hmatch := matchHere_run (by rw [hrep]; exact nofun) hrun (fun _ => hne) hrest hend
  rw [findAll, search_of_prefix (by rw [hrep]; exact nofun) hlead hmatch]
  simp

theorem findAll_eq_nil {n : ℕ} (hrep : it.rep = .plus) (hw : ∀ c ∈ w, it.cls c = false) :
    findAll [it] n w = [] := by
  cases n with
  | zero => rfl
  | succ n => rw [findAll, search_eq_none (by rw [hrep]; exact nofun) hw]

end Regex
