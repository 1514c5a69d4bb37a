import Schnauzer.Detect.InstRace
import Schnauzer.Lib.TextOrder
import Schnauzer.Scripts.Race

/-!
# Names of trace files

`Config::tracePath` names a trace after the benchmark, the local time and the scheduler, and
`DepGraph::getRaceName` names the races of a trace after the trace.

`fileExists` looks a path up; the clock gives another `struct tm` each time it is read. The lengths are those
that a file system and `localtime` keep to.

## What is proved

* `getCurrentTime_lt_iff` — the order of the times as texts.
* `tracePath_eq_some`, `traceFile_eq` — the path of a trace.
* `getRaceName_traceFile` — the path of the races of a trace.
-/

namespace Schnauzer

open Text Scripts

/-- The name of a file. -/
structure FileName where
  /-- The name. -/
  val : Str
  /-- It is one name. -/
  noSlash : '/' ∉ val
  /-- `NAME_MAX`. -/
  lengthLe : val.length ≤ 255

/-- `struct tm`. -/
structure Tm where
  tmYear : ℤ
  tmMon : ℕ
  tmMday : ℕ
  tmHour : ℕ
  tmMin : ℕ
  tmSec : ℕ
  /-- `tm_year + 1900` is an `int`. -/
  yearInt : -2 ^ 31 ≤ tmYear + 1900 ∧ tmYear + 1900 < 2 ^ 31
  monLe : tmMon ≤ 11
  mdayLe : tmMday ≤ 31
  hourLe : tmHour ≤ 23
  minLe : tmMin ≤ 59
  secLe : tmSec ≤ 60

namespace Aux

/-- `Aux::getCurrentTime`. -/
def getCurrentTime (tstruct : Tm) : Str :=
  (integer (tstruct.tmYear + 1900) ++ '-' :: (pad2 (tstruct.tmMon + 1) ++ '-' :: (pad2 tstruct.tmMday ++ '_' ::
    (pad2 tstruct.tmHour ++ ':' :: (pad2 tstruct.tmMin ++ ':' :: pad2 tstruct.tmSec))))).take (80 - 1)

/-- `clear_path_postfix`. -/
def clearPathPostfix (path : Str) : Str := path.rdropWhile (· = '/')

/-- `Aux::pathJoin`. -/
def pathJoin (path₁ : Str) (paths : List Str) : Str :=
  paths.foldl (fun totPath path => clearPathPostfix (totPath ++ '/' :: path)) (clearPathPostfix path₁)

/-- `str.rfind(from)` and `str.replace`, where there is one. -/
def replaceLast? (old new : Str) : Str → Option Str
  | [] => none
  | c :: str =>
    match replaceLast? old new str with
    | some str => some (c :: str)
    | none => if old <+: c :: str then some (new ++ (c :: str).drop old.length) else none

/-- `Aux::replaceLast`. -/
def replaceLast (str old new : Str) : Str :=
  if old = [] then str else (replaceLast? old new str).getD str

end Aux

open Aux

/-- The path that one reading of the clock gives. -/
def traceFile (logDir : Str) (name sched : FileName) (now : Tm) : Option Str := do
  let traceDir := pathJoin logDir [name.val, "detect".toList]
  let traceName ← (Aux.format
    (name.val ++ '_' :: (getCurrentTime now ++ '_' :: (sched.val ++ ".trace".toList)))).toOption
  return pathJoin traceDir [traceName]

/-- `Config::tracePath`, while the clock is read. -/
def tracePath (fileExists : Str → Bool) (logDir : Str) (name sched : FileName) : List Tm → Option Str
  | [] => none
  | now :: rest => do
    let path ← traceFile logDir name sched now
    if fileExists path then tracePath fileExists logDir name sched rest else return path

/-- `DepGraph::getRaceName`. -/
def getRaceName (traceName : Str) : Str := replaceLast traceName "trace".toList "race".toList

/-- What the names of a run's files begin with. -/
def stem (name sched : FileName) (now : Tm) : Str := name.val ++ '_' :: (getCurrentTime now ++ '_' :: sched.val)

/-- The order of times. -/
def Tm.Before (t u : Tm) : Prop :=
  t.tmYear < u.tmYear ∨ t.tmYear = u.tmYear ∧
    [t.tmMon, t.tmMday, t.tmHour, t.tmMin, t.tmSec] < [u.tmMon, u.tmMday, u.tmHour, u.tmMin, u.tmSec]

/-- The year in a name, with the sign after it. -/
def Tm.yearText (t : Tm) : Str := integer (t.tmYear + 1900) ++ ['-']

variable {fileExists : Str → Bool} {logDir path : Str} {name sched : FileName} {now t u : Tm}

/-! ### The time -/

theorem length_pad2_le {n : ℕ} (hn : n < 100) : (pad2 n).length = 2 := by
  rw [pad2_eq hn]
  rfl

/-- The year has ten digits at most. -/
theorem length_yearText (t : Tm) : t.yearText.length ≤ 12 := by
  have ⟨hlo, hhi⟩ := t.yearInt
  rw [Tm.yearText, List.length_append]
  refine Nat.add_le_add_right ?_ 1
  match hy : t.tmYear + 1900 with
  | .ofNat n =>
    rw [hy] at hhi
    have hn : n < 10 ^ 10 := by
      have : (n : ℤ) < 2 ^ 31 := hhi
      omega
    exact ((Nat.length_toDigits_le_iff (by decide) (by decide)).mpr hn).trans (by decide)
  | .negSucc n =>
    rw [hy] at hlo
    have hn : n + 1 < 10 ^ 10 := by
      have : -2 ^ 31 ≤ Int.negSucc n := hlo
      omega
    exact Nat.succ_le_succ ((Nat.length_toDigits_le_iff (by decide) (by decide)).mpr hn)

/-- The text of the time fits its buffer. -/
theorem getCurrentTime_eq (t : Tm) : getCurrentTime t = t.yearText ++ (pad2 (t.tmMon + 1) ++ '-' :: (pad2 t.tmMday ++
    '_' :: (pad2 t.tmHour ++ ':' :: (pad2 t.tmMin ++ ':' :: pad2 t.tmSec)))) := by
  have hyear := length_yearText t
  have hmon : (pad2 (t.tmMon + 1)).length = 2 := length_pad2_le (by have := t.monLe; omega)
  have hmday : (pad2 t.tmMday).length = 2 := length_pad2_le (by have := t.mdayLe; omega)
  have hhour : (pad2 t.tmHour).length = 2 := length_pad2_le (by have := t.hourLe; omega)
  have hmin : (pad2 t.tmMin).length = 2 := length_pad2_le (by have := t.minLe; omega)
  have hsec : (pad2 t.tmSec).length = 2 := length_pad2_le (by have := t.secLe; omega)
  rw [Tm.yearText, List.length_append, List.length_singleton] at hyear
  rw [getCurrentTime, List.take_of_length_le, Tm.yearText, List.append_assoc, List.singleton_append]
  simp only [List.length_append, List.length_cons, hmon, hmday, hhour, hmin, hsec]
  omega

theorem length_getCurrentTime_le (t : Tm) : (getCurrentTime t).length ≤ 79 := List.length_take_le _ _

/-- The date. -/
def Tm.date (t : Tm) : Str := t.yearText ++ (pad2 (t.tmMon + 1) ++ '-' :: pad2 t.tmMday)

/-- The time of the day. -/
def Tm.time (t : Tm) : Str := pad2 t.tmHour ++ ':' :: (pad2 t.tmMin ++ ':' :: pad2 t.tmSec)

theorem getCurrentTime_eq_date (t : Tm) : getCurrentTime t = t.date ++ '_' :: t.time := by
  rw [getCurrentTime_eq, Tm.date, Tm.time, List.append_assoc, List.append_assoc, List.cons_append]

theorem not_mem_date (t : Tm) : '_' ∉ t.date := by
  have hyear : '_' ∉ integer (t.tmYear + 1900) := not_mem_integer rfl (by decide)
  have hpad : ∀ n, '_' ∉ pad2 n := fun n => not_mem_pad2 rfl
  simp [Tm.date, Tm.yearText, hyear, hpad]

theorem not_mem_time (t : Tm) : '_' ∉ t.time := by
  have hpad : ∀ n, '_' ∉ pad2 n := fun n => not_mem_pad2 rfl
  simp [Tm.time, hpad]

/-- **The order of the texts**: the years as texts, then the order of the times. -/
theorem getCurrentTime_lt_iff : getCurrentTime t < getCurrentTime u ↔
    t.tmYear ≠ u.tmYear ∧ t.yearText < u.yearText ∨ t.tmYear = u.tmYear ∧
      [t.tmMon, t.tmMday, t.tmHour, t.tmMin, t.tmSec] < [u.tmMon, u.tmMday, u.tmHour, u.tmMin, u.tmSec] := by
  have htmon := t.monLe; have humon := u.monLe
  have htmday := t.mdayLe; have humday := u.mdayLe
  have hthour := t.hourLe; have huhour := u.hourLe
  have htmin := t.minLe; have humin := u.minLe
  have htsec := t.secLe; have husec := u.secLe
  rw [getCurrentTime_eq, getCurrentTime_eq]
  by_cases hyear : t.tmYear = u.tmYear
  · have hsep : ∀ {c : Char} {x y : Str}, c :: x < c :: y ↔ x < y := by simp
    have hlast : pad2 t.tmSec < pad2 u.tmSec ↔ t.tmSec < u.tmSec := by
      simpa using pad2_append_lt (x := []) (y := []) (a := t.tmSec) (b := u.tmSec) (by omega) (by omega)
    rw [Tm.yearText, hyear, ← Tm.yearText]
    apply append_lt_append_iff_self.trans
    rw [pad2_append_lt (by omega) (by omega), hsep, pad2_append_lt (by omega) (by omega), hsep,
      pad2_append_lt (by omega) (by omega), hsep, pad2_append_lt (by omega) (by omega), hsep, hlast]
    simp [List.cons_lt_cons_iff]
  · have hne : t.tmYear + 1900 ≠ u.tmYear + 1900 := fun h => hyear (by omega)
    have horder := append_lt_append_iff_of_apart (α := Char)
      (x := pad2 (t.tmMon + 1) ++ '-' :: (pad2 t.tmMday ++ '_' :: (pad2 t.tmHour ++ ':' :: (pad2 t.tmMin ++ ':' ::
        pad2 t.tmSec))))
      (y := pad2 (u.tmMon + 1) ++ '-' :: (pad2 u.tmMday ++ '_' :: (pad2 u.tmHour ++ ':' :: (pad2 u.tmMin ++ ':' ::
        pad2 u.tmSec)))) (not_prefix_integer hne) (not_prefix_integer hne.symm)
    apply horder.trans
    simp only [hyear, ne_eq, not_false_eq_true, true_and, false_and, or_false]
    rfl

/-! ### The names -/

/-- The end of a name is replaced. -/
theorem replaceLast_append {old : Str} (hold : old ≠ []) (new s : Str) :
    replaceLast (s ++ old) old new = s ++ new := by
  have hshort : ∀ v : Str, v.length < old.length → replaceLast? old new v = none := by
    intro v hv
    induction v with
    | nil => rfl
    | cons c v ih =>
      rw [replaceLast?, ih ((Nat.lt_succ_self _).trans hv)]
      exact if_neg fun h => absurd h.length_le (not_le.mpr hv)
  have hlast : replaceLast? old new (s ++ old) = some (s ++ new) := by
    induction s with
    | nil =>
      match old, hold with
      | c :: old, _ =>
        rw [List.nil_append, replaceLast?, hshort old (Nat.lt_succ_self _)]
        simp
    | cons c s ih =>
      rw [List.cons_append, replaceLast?, ih]
      rfl
  rw [replaceLast, if_neg hold, hlast]
  rfl

/-- **A path of a trace.** -/
theorem traceFile_eq (logDir : Str) (name sched : FileName) (now : Tm) : traceFile logDir name sched now =
    some (pathJoin logDir [name.val, "detect".toList] ++ '/' :: (stem name sched now ++ ".trace".toList)) := by
  have hname := name.lengthLe
  have hsched := sched.lengthLe
  have htime := length_getCurrentTime_le now
  have hlength : (".trace".toList).length = 6 := rfl
  have hshort :
      (name.val ++ '_' :: (getCurrentTime now ++ '_' :: (sched.val ++ ".trace".toList))).length < 1024 - 1 := by
    simp only [List.length_append, List.length_cons, hlength]
    omega
  have hdir : clearPathPostfix (pathJoin logDir [name.val, "detect".toList]) =
      pathJoin logDir [name.val, "detect".toList] := List.rdropWhile_idempotent _ _
  have hend : ∀ v : Str, clearPathPostfix (v ++ ".trace".toList) = v ++ ".trace".toList := fun v =>
    List.rdropWhile_eq_self_iff.mpr fun hv => by simp
  have hpath : pathJoin (pathJoin logDir [name.val, "detect".toList]) [stem name sched now ++ ".trace".toList] =
      pathJoin logDir [name.val, "detect".toList] ++ '/' :: (stem name sched now ++ ".trace".toList) := by
    rw [pathJoin, hdir, List.foldl_cons, List.foldl_nil, ← List.cons_append, ← List.append_assoc, hend]
  rw [traceFile, Aux.format_ok hshort, ← hpath, stem, List.append_assoc, List.cons_append, List.append_assoc,
    List.cons_append]
  rfl

/-- **`tracePath`** returns the path that one reading of the clock gives, and no file is there. -/
theorem tracePath_eq_some {clock : List Tm} (h : tracePath fileExists logDir name sched clock = some path) :
    ∃ now ∈ clock, traceFile logDir name sched now = some path ∧ fileExists path = false := by
  induction clock with
  | nil => cases h
  | cons now clock ih =>
    rw [tracePath, traceFile_eq, Option.bind_eq_bind, Option.bind_some] at h
    split_ifs at h with hexists
    · obtain ⟨t, ht, hpath⟩ := ih h
      exact ⟨t, List.mem_cons_of_mem _ ht, hpath⟩
    · obtain rfl := Option.some.inj h
      exact ⟨now, List.mem_cons_self, traceFile_eq _ _ _ _, Bool.eq_false_iff.mpr hexists⟩

/-- **The path of the races** of a trace. -/
theorem getRaceName_traceFile (h : traceFile logDir name sched now = some path) : getRaceName path =
    pathJoin logDir [name.val, "detect".toList] ++ '/' :: (stem name sched now ++ ".race".toList) := by
  rw [traceFile_eq] at h
  obtain rfl := Option.some.inj h
  have htrace : ".trace".toList = ['.'] ++ "trace".toList := rfl
  have hrace : ".race".toList = ['.'] ++ "race".toList := rfl
  rw [getRaceName, htrace, hrace, ← List.append_assoc, ← List.cons_append, ← List.append_assoc,
    replaceLast_append (by decide)]
  simp

end Schnauzer
