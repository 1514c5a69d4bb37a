import Mathlib.Data.List.Sort
import Schnauzer.Common.TracePath

/-!
# What the scripts read off the names of race files

`scripts/Race.py` loads the race files of a benchmark in the order of the times in their names, and
`scripts/LetsGO` names their summary. A function of `os` that a script calls is given here; the entries of a
directory come in any order, and `none` is an exception.

## What is proved

* `fnameTimestamp_raceFile` — the time of a file, where the benchmark's name has no `_`.
* `totalRaceFiles_eq` — the order in which the files are loaded.
* `decodes_iff` — for which benchmarks and runs the names are read as they were written.
-/

namespace Schnauzer

namespace Scripts

open Text Aux

/-! ### `os.path` -/

/-- `os.path.join`. -/
def osPathJoin (a b : Str) : Str :=
  if b.head? = some '/' then b
  else if a = [] ∨ a.getLast? = some '/' then a ++ b
  else a ++ '/' :: b

/-- `os.path.basename`. -/
def basename (p : Str) : Str := p.rtakeWhile (· ≠ '/')

/-- `os.path.splitext`. -/
def splitext (p : Str) : Str × Str :=
  let ext := p.rtakeWhile (· ≠ '.')
  let root := (p.rdropWhile (· ≠ '.')).dropLast
  if '.' ∈ p ∧ '/' ∉ ext ∧ ¬ (basename root).all (· = '.') then (root, '.' :: ext) else (p, [])

/-- `s.replace(old, new)`, where `skip` characters are left of the last one that was replaced. -/
def replace (old new : Str) (skip : ℕ) : Str → Str
  | [] => []
  | c :: s =>
    match skip with
    | skip + 1 => replace old new skip s
    | 0 => if old <+: c :: s then new ++ replace old new (old.length - 1) s else c :: replace old new 0 s

/-! ### The scripts -/

/-- `utils.list_dir`, of a directory with the entries `listing`. -/
def listDir {κ : Type} [LinearOrder κ] (dirPath : Str) (listing : List Str) (ext : Str) (fkey : Str → Option κ) :
    Option (List Str) := do
  let files := listing.filter (ext <:+ ·)
  let keyed ← files.mapM fun f => do return (← fkey f, f)
  return (keyed.mergeSort (·.1 ≤ ·.1)).map fun f => osPathJoin dirPath f.2

/-- `RaceFileManager.fnameTimestamp`. -/
def fnameTimestamp (fname : Str) : Option Str := do
  let s := fname.splitOn '_'
  return (← s[1]?) ++ '_' :: (← s[2]?)

/-- The loop of `RaceFileManager.loadTotalRaceFile` does not `continue` at a file. -/
def isLoaded (sched : Option Str) (f : Str) : Bool :=
  match sched with
  | none => true
  | some sched => sched <:+: f

/-- The files that `RaceFileManager.loadTotalRaceFile` loads, in its order. -/
def totalRaceFiles (detectDir : Str) (listing : List Str) (sched : Option Str) : Option (List Str) := do
  let files ← listDir detectDir listing ".race".toList fnameTimestamp
  return files.filter (isLoaded sched)

/-- `summary_path`; the entries were modified at the times `mtime`. -/
def summaryPath (detectDir : Str) (listing : List Str) (mtime : Str → ℕ) (sched : Option Str) :
    Option (Option Str) := do
  let summaryDir := replace "/detect".toList "/summary".toList 0 detectDir
  match ← listDir detectDir listing ".race".toList fun f => some (mtime f) with
  | [] => return none
  | f :: _ =>
    let tmp := (splitext (basename f)).1.splitOn '_'
    let sched ← match sched with
      | some sched => some sched
      | none => tmp[3]?
    return some (osPathJoin summaryDir ((← tmp[0]?) ++ '_' :: sched))

/-! ### The property -/

/-- A run of the benchmark. -/
structure Run where
  /-- The time at which its trace was named. -/
  now : Tm
  /-- Its scheduler. -/
  sched : FileName

/-- The entry of the directory for the races of a run. -/
def raceFile (logDir : Str) (name : FileName) (r : Run) : Option Str :=
  (traceFile logDir name r.sched r.now).map fun path => basename (getRaceName path)

/-- The names are read as they were written. -/
structure ReadsBack (name : FileName) (runs : List Run) (file : Run → Str) : Prop where
  /-- The time of a file is the one it was named after. -/
  timestamp : ∀ r ∈ runs, fnameTimestamp (file r) = some (getCurrentTime r.now)
  /-- The files are loaded in the order of their times. -/
  chronological : ∀ detectDir listing sched, (listing.filter (".race".toList <:+ ·)).Perm (runs.map file) →
    ∃ rs : List Run, rs.Perm (runs.filter fun r => isLoaded sched (osPathJoin detectDir (file r))) ∧
      totalRaceFiles detectDir listing sched = some (rs.map fun r => osPathJoin detectDir (file r)) ∧
      rs.Pairwise fun r r' => ¬ r'.now.Before r.now
  /-- The summary is named after the benchmark. -/
  summary : ∀ detectDir listing mtime sched, (listing.filter (".race".toList <:+ ·)).Perm (runs.map file) → runs ≠ [] →
    ∃ s, (∀ x ∈ sched, s = x) ∧ summaryPath detectDir listing mtime sched =
      some (some (osPathJoin (replace "/detect".toList "/summary".toList 0 detectDir) (name.val ++ '_' :: s)))

/-- The names that `tracePath` gives the runs of a benchmark are read as they were written. -/
def Decodes (logDir : Str) (name : FileName) (runs : List Run) : Prop :=
  ∃ file : Run → Str, (∀ r, raceFile logDir name r = some (file r)) ∧ ReadsBack name runs file

/-- The years are in the same order as texts. -/
def YearsOrdered (runs : List Run) : Prop :=
  ∀ r ∈ runs, ∀ r' ∈ runs, r.now.tmYear < r'.now.tmYear → r.now.yearText < r'.now.yearText

variable {logDir detectDir p s : Str} {listing : List Str} {name : FileName} {runs : List Run} {r : Run}
  {file : Run → Str}

/-! ### Paths -/

theorem basename_of_not_mem (hs : '/' ∉ s) : basename s = s :=
  List.rtakeWhile_eq_self_iff.mpr fun c hc => by simpa using fun h : c = '/' => hs (h ▸ hc)

theorem basename_append_slash (p : Str) (hs : '/' ∉ s) : basename (p ++ '/' :: s) = s := by
  rw [basename, List.rtakeWhile, List.reverse_append, List.reverse_cons, List.append_assoc,
    List.takeWhile_append_of_pos fun c hc => by simpa using fun h : c = '/' => hs (h ▸ List.mem_reverse.mp hc)]
  simp

/-- An entry of a directory. -/
theorem basename_osPathJoin (hs : '/' ∉ s) : basename (osPathJoin p s) = s := by
  unfold osPathJoin
  split_ifs with hhead hdir
  · exact basename_of_not_mem hs
  · obtain rfl | hlast := hdir
    · exact basename_of_not_mem hs
    · obtain ⟨q, rfl⟩ := List.getLast?_eq_some_iff.mp hlast
      rw [List.append_assoc]
      exact basename_append_slash q hs
  · exact basename_append_slash p hs

theorem osPathJoin_inj {t : Str} (hs : '/' ∉ s) (ht : '/' ∉ t) : osPathJoin p s = osPathJoin p t ↔ s = t := by
  constructor
  · intro h
    rw [← basename_osPathJoin (p := p) hs, h, basename_osPathJoin ht]
  · exact congrArg _

/-- The name without its extension. -/
theorem splitext_append {c : Char} (hs : '/' ∉ s) (hc : c ∈ s) (hdot : c ≠ '.') (ext : Str) (hext : '.' ∉ ext)
    (hslash : '/' ∉ ext) : splitext (s ++ '.' :: ext) = (s, '.' :: ext) := by
  have htake : (s ++ '.' :: ext).rtakeWhile (· ≠ '.') = ext := by
    rw [List.rtakeWhile, List.reverse_append, List.reverse_cons, List.append_assoc,
      List.takeWhile_append_of_pos fun c hc => by simpa using fun h : c = '.' => hext (h ▸ List.mem_reverse.mp hc)]
    simp
  have hdrop : (s ++ '.' :: ext).rdropWhile (· ≠ '.') = s ++ ['.'] := by
    have hsplit := List.rdropWhile_append_rtakeWhile (p := (· ≠ '.')) (l := s ++ '.' :: ext)
    rw [htake] at hsplit
    exact List.append_cancel_right (hsplit.trans (List.append_cons s '.' ext))
  have hall : ¬ (basename s).all (· = '.') := by
    rw [basename_of_not_mem hs, List.all_eq_true]
    exact fun h => hdot (by simpa using h c hc)
  rw [splitext, htake, hdrop, List.dropLast_concat, if_pos ⟨by simp, hslash, hall⟩]

/-! ### The order in which the files are loaded -/

theorem mapM_key_eq {κ : Type} {fkey : Str → Option κ} {k : Str → κ} {files : List Str}
    (hk : ∀ f ∈ files, fkey f = some (k f)) :
    (files.mapM fun f => do return (← fkey f, f)) = some (files.map fun f => (k f, f)) := by
  induction files with
  | nil => rfl
  | cons f files ih =>
    have ⟨hf, hfiles⟩ := List.forall_mem_cons.mp hk
    rw [List.mapM_cons, ih hfiles, hf]
    rfl

/-- **`list_dir`**, where every entry has a key. -/
theorem listDir_eq {κ : Type} [LinearOrder κ] {ext : Str} {fkey : Str → Option κ} {k : Str → κ}
    (hk : ∀ f ∈ listing.filter (ext <:+ ·), fkey f = some (k f)) : listDir p listing ext fkey =
      some (((listing.filter (ext <:+ ·)).mergeSort (k · ≤ k ·)).map (osPathJoin p)) := by
  rw [listDir, mapM_key_eq hk, Option.bind_eq_bind, Option.bind_some,
    ← List.map_mergeSort (r := (k · ≤ k ·)) fun _ _ _ _ => rfl, List.map_map]
  rfl

/-- What is in the order of the images comes from the originals in some order. -/
theorem exists_perm_map {α β : Type} {f : α → β} {l : List β} {xs : List α} (h : l.Perm (xs.map f)) :
    ∃ ys : List α, ys.Perm xs ∧ l = ys.map f := by
  generalize hm : xs.map f = m at h
  induction h generalizing xs with
  | nil =>
    obtain rfl := List.map_eq_nil_iff.mp hm
    exact ⟨[], .nil, rfl⟩
  | cons b _ ih =>
    obtain ⟨x, xs, rfl, rfl, hxs⟩ := List.map_eq_cons_iff.mp hm
    obtain ⟨ys, hperm, rfl⟩ := ih hxs
    exact ⟨x :: ys, hperm.cons x, rfl⟩
  | swap b c l =>
    obtain ⟨x, xs, rfl, rfl, hxs⟩ := List.map_eq_cons_iff.mp hm
    obtain ⟨y, xs, rfl, rfl, rfl⟩ := List.map_eq_cons_iff.mp hxs
    exact ⟨y :: x :: xs, .swap x y xs, rfl⟩
  | trans _ _ ih₁ ih₂ =>
    obtain ⟨ys, hys, rfl⟩ := ih₂ hm
    obtain ⟨zs, hzs, rfl⟩ := ih₁ rfl
    exact ⟨zs, hzs.trans hys, rfl⟩

/-- **The order in which the files are loaded**: that of the times as texts. -/
theorem totalRaceFiles_eq (detectDir : Str) (htime : ∀ r ∈ runs, fnameTimestamp (file r) = some (getCurrentTime r.now))
    (hlisting : (listing.filter (".race".toList <:+ ·)).Perm (runs.map file)) (sched : Option Str) :
    ∃ rs : List Run, rs.Perm runs ∧ (rs.Pairwise fun r r' => getCurrentTime r.now ≤ getCurrentTime r'.now) ∧
      totalRaceFiles detectDir listing sched =
        some ((rs.filter fun r => isLoaded sched (osPathJoin detectDir (file r))).map fun r =>
          osPathJoin detectDir (file r)) := by
  obtain ⟨rs, hperm, hfiles⟩ := exists_perm_map hlisting
  have htime' : ∀ r ∈ rs, fnameTimestamp (file r) = some (getCurrentTime r.now) := fun r hr =>
    htime r (hperm.mem_iff.mp hr)
  have hkey : ∀ f ∈ listing.filter (".race".toList <:+ ·), fnameTimestamp f = some ((fnameTimestamp f).getD []) := by
    rw [hfiles]
    intro f hf
    obtain ⟨r, hr, rfl⟩ := List.mem_map.mp hf
    rw [htime' r hr]
    rfl
  refine ⟨rs.mergeSort (getCurrentTime ·.now ≤ getCurrentTime ·.now), (List.mergeSort_perm _ _).trans hperm, ?_, ?_⟩
  · have hsorted : (rs.mergeSort (getCurrentTime ·.now ≤ getCurrentTime ·.now)).Pairwise
        (fun r r' => decide (getCurrentTime r.now ≤ getCurrentTime r'.now)) := List.pairwise_mergeSort
      (fun _ _ _ h h' => by simpa using le_trans (of_decide_eq_true h) (of_decide_eq_true h'))
      (fun r r' => by simpa using le_total (getCurrentTime r.now) (getCurrentTime r'.now)) rs
    exact hsorted.imp of_decide_eq_true
  · rw [totalRaceFiles, listDir_eq hkey, Option.bind_eq_bind, Option.bind_some, hfiles,
      ← List.map_mergeSort (r := fun r r' : Run => getCurrentTime r.now ≤ getCurrentTime r'.now), List.map_map,
      List.filter_map]
    · rfl
    · intro r hr r' hr'
      rw [htime' r hr, htime' r' hr']
      rfl
/-! ### One name -/

theorem not_mem_stem (name : FileName) (r : Run) : '/' ∉ stem name r.sched r.now := by
  have htime : '/' ∉ getCurrentTime r.now := by
    have hpad : ∀ n, '/' ∉ pad2 n := fun n => not_mem_pad2 rfl
    have hyear : '/' ∉ integer (r.now.tmYear + 1900) := not_mem_integer rfl (by decide)
    rw [getCurrentTime_eq, Tm.yearText]
    simp [hyear, hpad]
  simp [stem, name.noSlash, r.sched.noSlash, htime]

theorem not_mem_race (name : FileName) (r : Run) : '/' ∉ stem name r.sched r.now ++ ".race".toList := fun h =>
  (List.mem_append.mp h).elim (not_mem_stem name r) (by decide)

/-- **The entry that a run leaves.** -/
theorem raceFile_eq (logDir : Str) (name : FileName) (r : Run) :
    raceFile logDir name r = some (stem name r.sched r.now ++ ".race".toList) := by
  rw [raceFile, traceFile_eq, Option.map_some, getRaceName_traceFile (traceFile_eq _ _ _ _),
    basename_append_slash _ (not_mem_race name r)]

/-- The parts of a name, where the benchmark's has no `_`. -/
theorem splitOn_stem (hname : '_' ∉ name.val) (r : Run) (s : Str) : (stem name r.sched r.now ++ s).splitOn '_' =
    name.val :: r.now.date :: r.now.time :: (r.sched.val ++ s).splitOn '_' := by
  have hstem : stem name r.sched r.now ++ s =
      name.val ++ '_' :: (r.now.date ++ '_' :: (r.now.time ++ '_' :: (r.sched.val ++ s))) := by
    simp [stem, getCurrentTime_eq_date]
  rw [hstem, List.splitOn_append_cons_self_of_not_mem hname, List.splitOn_append_cons_self_of_not_mem (not_mem_date _),
    List.splitOn_append_cons_self_of_not_mem (not_mem_time _)]

/-- **The time of a file**, where the benchmark's name has no `_`. -/
theorem fnameTimestamp_raceFile (hname : '_' ∉ name.val) (r : Run) :
    fnameTimestamp (stem name r.sched r.now ++ ".race".toList) = some (getCurrentTime r.now) := by
  rw [fnameTimestamp, splitOn_stem hname, getCurrentTime_eq_date]
  rfl

/-- The summary is named after what is before the first `_`. -/
theorem summaryPath_eq (detectDir : Str) (hlisting : (listing.filter (".race".toList <:+ ·)).Perm (runs.map fun r =>
    stem name r.sched r.now ++ ".race".toList)) (hruns : runs ≠ []) (mtime : Str → ℕ) (sched : Option Str) :
    ∃ r ∈ runs, summaryPath detectDir listing mtime sched = (do
      let tmp := (stem name r.sched r.now).splitOn '_'
      let sched ← match sched with
        | some sched => some sched
        | none => tmp[3]?
      return some (osPathJoin (replace "/detect".toList "/summary".toList 0 detectDir)
        ((← tmp[0]?) ++ '_' :: sched))) := by
  have hkey : ∀ f ∈ listing.filter (".race".toList <:+ ·), some (mtime f) = some (mtime f) := fun _ _ => rfl
  obtain ⟨f, fs, hfs⟩ : ∃ f fs, (listing.filter (".race".toList <:+ ·)).mergeSort (mtime · ≤ mtime ·) = f :: fs := by
    refine List.exists_cons_of_ne_nil fun h => hruns ?_
    have hperm := (List.mergeSort_perm (listing.filter (".race".toList <:+ ·)) (mtime · ≤ mtime ·)).trans hlisting
    rw [h] at hperm
    exact List.map_eq_nil_iff.mp hperm.nil_eq.symm
  obtain ⟨r, hr, rfl⟩ : ∃ r ∈ runs, stem name r.sched r.now ++ ".race".toList = f := by
    refine List.mem_map.mp (hlisting.mem_iff.mp ?_)
    exact (List.mergeSort_perm _ _).mem_iff.mp (hfs ▸ List.mem_cons_self)
  have hext : splitext (stem name r.sched r.now ++ ".race".toList) = (stem name r.sched r.now, ".race".toList) :=
    splitext_append (c := '_') (not_mem_stem name r) (by simp [stem]) (by decide) "race".toList (by decide)
      (by decide)
  refine ⟨r, hr, ?_⟩
  rw [summaryPath, listDir_eq hkey, Option.bind_eq_bind, Option.bind_some, hfs, List.map_cons]
  simp only [basename_osPathJoin (not_mem_race name r), hext]

/-! ### The main result -/

theorem decimal_eq_pad2 {n : ℕ} (hlo : 1000 ≤ n) (hhi : n < 10000) : decimal n = pad2 (n / 100) ++ pad2 (n % 100) := by
  have htop : decimal (n / 100) = pad2 (n / 100) := (if_neg (by omega)).symm
  have htens : decimal (n / 10) = decimal (n / 100) ++ [(n / 10 % 10).digitChar] := by
    rw [decimal, Nat.toDigits_of_base_le (by decide) (by omega), Nat.div_div_eq_div_mul]
    rfl
  rw [decimal, Nat.toDigits_of_base_le (by decide) (by omega), ← decimal, htens, htop,
    pad2_eq (Nat.mod_lt n (by decide)), List.append_assoc, List.singleton_append]
  congr 4 <;> omega

/-- The years of four digits are in order. -/
theorem yearsOrdered_of_four_digits (hyears : ∀ r ∈ runs, 1000 ≤ r.now.tmYear + 1900 ∧ r.now.tmYear + 1900 < 10000) :
    YearsOrdered runs := by
  intro r hr r' hr' hlt
  obtain ⟨n, hn⟩ := Int.eq_ofNat_of_zero_le (by have := (hyears r hr).1; omega : 0 ≤ r.now.tmYear + 1900)
  obtain ⟨m, hm⟩ := Int.eq_ofNat_of_zero_le (by have := (hyears r' hr').1; omega : 0 ≤ r'.now.tmYear + 1900)
  have hnr := hyears r hr
  have hmr := hyears r' hr'
  have hn' : integer n = pad2 (n / 100) ++ pad2 (n % 100) := decimal_eq_pad2 (by omega) (by omega)
  have hm' : integer m = pad2 (m / 100) ++ pad2 (m % 100) := decimal_eq_pad2 (by omega) (by omega)
  rw [Tm.yearText, Tm.yearText, hn, hm, hn', hm', List.append_assoc, List.append_assoc,
    pad2_append_lt (by omega) (by omega), pad2_append_lt (by omega) (by omega)]
  omega

theorem Tm.not_before_of_le {t u : Tm} (hyear : u.tmYear < t.tmYear → u.yearText < t.yearText)
    (h : getCurrentTime t ≤ getCurrentTime u) : ¬ u.Before t := by
  intro hbefore
  refine not_lt.mpr h (getCurrentTime_lt_iff.mpr ?_)
  exact hbefore.imp (fun hlt => ⟨hlt.ne, hyear hlt⟩) id

theorem readsBack_nil (name : FileName) (file : Run → Str) : ReadsBack name [] file where
  timestamp := by simp
  chronological := fun detectDir listing sched hlisting => by
    obtain ⟨rs, hperm, -, hfiles⟩ := totalRaceFiles_eq detectDir (by simp) hlisting sched
    obtain rfl := hperm.eq_nil
    exact ⟨[], .nil, hfiles, .nil⟩
  summary := fun _ _ _ _ _ hruns => absurd rfl hruns

/-- Where the years are in order and the benchmark's name has no `_`, the names are read back. -/
theorem readsBack (hname : '_' ∉ name.val) (hyears : YearsOrdered runs) :
    ReadsBack name runs fun r => stem name r.sched r.now ++ ".race".toList where
  timestamp := fun r _ => fnameTimestamp_raceFile hname r
  chronological := fun detectDir listing sched hlisting => by
    obtain ⟨rs, hperm, hsorted, hfiles⟩ := totalRaceFiles_eq detectDir
      (fun r _ => fnameTimestamp_raceFile hname r) hlisting sched
    refine ⟨_, hperm.filter _, hfiles, (hsorted.imp_of_mem fun hr hr' h => ?_).filter _⟩
    exact Tm.not_before_of_le (hyears _ (hperm.mem_iff.mp hr') _ (hperm.mem_iff.mp hr)) h
  summary := fun detectDir listing mtime sched hlisting hruns => by
    obtain ⟨r, -, hpath⟩ := summaryPath_eq detectDir hlisting hruns mtime sched
    have hsplit := splitOn_stem hname r []
    rw [List.append_nil, List.append_nil] at hsplit
    rw [hpath, hsplit]
    match sched with
    | some sched => exact ⟨sched, fun x hx => Option.some.inj hx, rfl⟩
    | none =>
      obtain ⟨x, xs, hx⟩ := List.exists_cons_of_ne_nil (List.splitOn_ne_nil '_' r.sched.val)
      rw [hx]
      exact ⟨x, by simp, rfl⟩

theorem filter_raceFile (name : FileName) (runs : List Run) :
    (runs.map fun r => stem name r.sched r.now ++ ".race".toList).filter (".race".toList <:+ ·) =
      runs.map fun r => stem name r.sched r.now ++ ".race".toList := by
  apply List.filter_eq_self.mpr
  intro f hf
  obtain ⟨r, -, rfl⟩ := List.mem_map.mp hf
  simp

/-- **A summary that is named after the benchmark** shows that its name has no `_`. -/
theorem not_mem_of_readsBack (hruns : runs ≠ [])
    (h : ReadsBack name runs fun r => stem name r.sched r.now ++ ".race".toList) : '_' ∉ name.val := by
  intro hmem
  have hlisting := List.Perm.of_eq (filter_raceFile name runs)
  obtain ⟨s, hs, hpath⟩ := h.summary [] _ (fun _ => 0) (some []) hlisting hruns
  obtain ⟨r, -, hpath'⟩ := summaryPath_eq [] hlisting hruns (fun _ => 0) (some [])
  obtain ⟨u, v, hname, hu⟩ := List.eq_append_cons_of_mem hmem
  have hstem : stem name r.sched r.now = u ++ '_' :: (v ++ '_' :: (getCurrentTime r.now ++ '_' :: r.sched.val)) := by
    simp [stem, hname]
  rw [hpath', hs [] rfl, hstem, List.splitOn_append_cons_self_of_not_mem hu] at hpath
  have hslash : '/' ∉ name.val ++ ['_'] := by simp [name.noSlash]
  have hslash' : '/' ∉ u ++ ['_'] := fun hu => hslash (by
    rw [hname]
    simp_all)
  have heq : u ++ ['_'] = name.val ++ ['_'] :=
    (osPathJoin_inj hslash' hslash).mp (Option.some.inj (Option.some.inj hpath))
  rw [← List.append_cancel_right heq] at hmem
  exact hu hmem

/-- The times that the paths of some runs tell. -/
theorem ReadsBack.map_timestamp
    (h : ReadsBack name runs fun r => stem name r.sched r.now ++ ".race".toList) {l : List Run}
    (hl : ∀ r ∈ l, r ∈ runs) : (l.map fun r => osPathJoin [] (stem name r.sched r.now ++ ".race".toList)).map
      (fun f => fnameTimestamp (basename f)) = (l.map (getCurrentTime ·.now)).map some := by
  rw [List.map_map, List.map_map]
  apply List.map_congr_left
  intro r hr
  rw [Function.comp_apply, Function.comp_apply, basename_osPathJoin (not_mem_race name r)]
  exact h.timestamp r (hl r hr)

/-- **Files that are loaded in order** show that their years are in order. -/
theorem yearsOrdered_of_readsBack
    (h : ReadsBack name runs fun r => stem name r.sched r.now ++ ".race".toList) : YearsOrdered runs := by
  have hlisting := List.Perm.of_eq (filter_raceFile name runs)
  obtain ⟨rs, hperm, hfiles, hchron⟩ := h.chronological [] _ none hlisting
  obtain ⟨rs', hperm', hsorted', hfiles'⟩ := totalRaceFiles_eq [] h.timestamp hlisting none
  have hall : ∀ l : List Run, (l.filter fun r => isLoaded none (osPathJoin [] (stem name r.sched r.now ++
      ".race".toList))) = l := fun l => List.filter_eq_self.mpr fun _ _ => rfl
  rw [hall] at hperm hfiles'
  -- a name tells its time, so that both lists of runs have the same times
  have htimes : rs.map (getCurrentTime ·.now) = rs'.map (getCurrentTime ·.now) := by
    have hpaths := congrArg (List.map fun f => fnameTimestamp (basename f))
      (Option.some.inj (hfiles.symm.trans hfiles'))
    rw [h.map_timestamp fun _ => hperm.mem_iff.mp, h.map_timestamp fun _ => hperm'.mem_iff.mp] at hpaths
    exact List.map_injective_iff.mpr (Option.some_injective _) hpaths
  have hsorted : rs.Pairwise fun r r' => getCurrentTime r.now ≤ getCurrentTime r'.now := by
    rw [← List.pairwise_map (R := (· ≤ ·)) (f := fun r : Run => getCurrentTime r.now)] at hsorted' ⊢
    rwa [htimes]
  intro r hr r' hr' hlt
  have hfwd : rs.Pairwise fun r r' => r.now.Before r'.now → getCurrentTime r.now ≤ getCurrentTime r'.now := by
    apply hsorted.imp
    exact fun h _ => h
  have hbwd : rs.Pairwise (flip fun r r' => r.now.Before r'.now → getCurrentTime r.now ≤ getCurrentTime r'.now) :=
    hchron.imp fun h hbefore => absurd hbefore h
  have hle : getCurrentTime r.now ≤ getCurrentTime r'.now :=
    hfwd.forall_of_forall_of_flip (fun _ _ _ => le_rfl) hbwd (hperm.mem_iff.mpr hr) (hperm.mem_iff.mpr hr') (.inl hlt)
  obtain hyear | hyear | hyear := lt_trichotomy r.now.yearText r'.now.yearText
  · exact hyear
  · have hne : r.now.tmYear + 1900 ≠ r'.now.tmYear + 1900 := fun h => hlt.ne (by omega)
    exact absurd ⟨[], (List.append_nil _).trans hyear⟩ (not_prefix_integer hne)
  · exact absurd hle (not_le.mpr (getCurrentTime_lt_iff.mpr (.inl ⟨hlt.ne', hyear⟩)))

/-- **The names are read as they were written exactly where the benchmark's name has no `_`** and the years are in
the same order as texts. -/
theorem decodes_iff (logDir : Str) (name : FileName) (runs : List Run) :
    Decodes logDir name runs ↔ runs = [] ∨ '_' ∉ name.val ∧ YearsOrdered runs := by
  constructor
  · rintro ⟨file, hfile, h⟩
    obtain rfl : file = fun r => stem name r.sched r.now ++ ".race".toList :=
      funext fun r => Option.some.inj ((hfile r).symm.trans (raceFile_eq logDir name r))
    exact or_iff_not_imp_left.mpr fun hruns => ⟨not_mem_of_readsBack hruns h, yearsOrdered_of_readsBack h⟩
  · intro h
    refine ⟨fun r => stem name r.sched r.now ++ ".race".toList, raceFile_eq logDir name, ?_⟩
    obtain rfl | ⟨hname, hyears⟩ := h
    · exact readsBack_nil name _
    · exact readsBack hname hyears

/-- The first of January 2018, ten o'clock. -/
def newYear : Tm where
  tmYear := 118
  tmMon := 0
  tmMday := 1
  tmHour := 10
  tmMin := 0
  tmSec := 0
  yearInt := by decide
  monLe := by decide
  mdayLe := by decide
  hourLe := by decide
  minLe := by decide
  secLe := by decide

/-- The benchmark `a_b`, whose summary is named after `a`. -/
theorem not_decodes_underscore :
    ¬ Decodes "/logs".toList ⟨"a_b".toList, by decide, by decide⟩
      [⟨newYear, ⟨"SCS".toList, by decide, by decide⟩⟩] := by
  rintro ⟨file, hfile, h⟩
  obtain rfl : file = fun r => stem _ r.sched r.now ++ ".race".toList :=
    funext fun r => Option.some.inj ((hfile r).symm.trans (raceFile_eq _ _ r))
  exact not_mem_of_readsBack (List.cons_ne_nil _ _) h (by decide)

end Scripts

end Schnauzer
