import Mathlib.Data.Nat.ModEq
import Schnauzer.Common.TracePath
import Schnauzer.Depgraph.BuildGraph
import Schnauzer.Depgraph.EventBytes
import Schnauzer.Depgraph.FileRaces
import Schnauzer.Depgraph.TraceParser
import Schnauzer.Detect.DetectPass
import Schnauzer.Detect.ReadBack

/-!
# The process of the detector

`main` of `analyze/detect`: a trace is loaded from its bytes, analysed, and the races are written to a file next to it,
which `scripts/Race.py` reads.

The loop over the trace may not end; it is given a number of rounds. What is printed, and the summary of the threads in
its file, are left out.

## What is proved

* `addRaces_of_loop` — the table of races is made of the events of the pairs.
* `events_fitting` — an event that was read has fields of the source's widths.
* `dumped_of_loaded` — no `assert` stops the race file.
* `main_writes`, `lookups_of_table` — what the process writes, and what the script finds in it.
* `main_reports` — **the whole process**: the script reads the races of the file, each under its two instructions.
-/

namespace Schnauzer

open Text

/-- How the process ends. -/
inductive Exit where
  /-- There is not one argument. -/
  | usage
  /-- The `assert` on the name of the trace. -/
  | name
  /-- The trace is too large. -/
  | tooLarge
  /-- The trace cannot be opened. -/
  | noTrace
  /-- It has not ended: it is in the loop over the trace. -/
  | loading
  /-- An `assert` of the graph or of a pass. -/
  | aborted (a : Abort)
  /-- The `assert` on the number of threads. -/
  | nrThread
  /-- It returns, and there is a race file. -/
  | reported (raceName text : Scripts.Str) (found : Detected)

/-- `Aux::endswith`. -/
def Aux.endswith (s ending : Scripts.Str) : Bool := if ending.length > s.length then false else ending <:+ s

/-- `_1G_`. -/
def giga : ℕ := 1000000000

/-- `DepGraph::buildGraph`, when the loop of `loadTrace` gets so many rounds. -/
def DepGraph.buildGraph (junk : ℕ → ℕ → UInt8) (rounds : ℕ) (file : TraceFile) :
    Option (Except Abort (DepGraph × ThreadGraph)) :=
  let s := LoadRun.run file junk rounds
  match s.aborted with
  | some a => some (.error a)
  | none =>
    if s.parser.isEOF.1 then
      some do
        let g := s.loader.finish
        let graph ← g.buildGraphImpl
        return (g, graph)
    else none

/-- `DetectPass::analyze` on the graph, with the race file. -/
def DetectPass.dumped (order : Traversal) (g : DepGraph) : Except Abort (Detected × Scripts.Str) := do
  let found ← DetectPass.analyze order g
  let text ← found.raceTable.dumpFile
  return (found, text)

/-- `main`; `open?` is the file system, and `noStat` what `stat` leaves for a path without a file. -/
def Detect.main (order : Traversal) (junk : ℕ → ℕ → UInt8) (rounds noStat : ℕ) (open? : Scripts.Str → Option TraceFile) :
    List Scripts.Str → Exit
  | [traceFname] =>
    if !Aux.endswith traceFname ".trace".toList then .name
    else if ((open? traceFname).map fun file => file.bytes.length).getD noStat > 3 * giga then .tooLarge
    else match open? traceFname with
      | none => .noTrace
      | some file =>
        match DepGraph.buildGraph junk rounds file with
        | none => .loading
        | some (.error a) => .aborted a
        | some (.ok (g, graph)) =>
          if ¬ graph.getNrThread < MAX_THREAD then .nrThread
          else match DetectPass.dumped order g with
            | .error a => .aborted a
            | .ok (found, text) => .reported (getRaceName traceFname) text found
  | _ => .usage

/-! ### The table of races -/

section Table

variable {file : List Event} {g : DepGraph} {ra : RaceAnalyze} {order : Traversal} {pairs : List (ℕ × ℕ)}
  {found found' : Detected}

/-- The events that two pointers point to. -/
def DepGraph.Points (g : DepGraph) (p : ℕ × ℕ) (q : Event × Event) : Prop :=
  g.totEvents[p.1]? = some q.1 ∧ g.totEvents[p.2]? = some q.2

theorem deref_eq_ok {p : ℕ} {evt : Event} : g.deref p = .ok evt ↔ g.totEvents[p]? = some evt := by
  unfold DepGraph.deref
  cases g.totEvents[p]? <;> simp

/-- **The loop over the races** adds the events of the pairs, in its order. -/
theorem addRaces_of_loop (h : DetectPass.loopPairs g DetectPass.countRace pairs found = .ok found') :
    ∃ ps, List.Forall₂ g.Points pairs ps ∧ found.raceTable.addRaces ps = .ok found'.raceTable := by
  induction pairs generalizing found with
  | nil =>
    cases h
    exact ⟨[], .nil, rfl⟩
  | cons p pairs ih =>
    obtain ⟨first, hfirst, h⟩ := bind_eq_ok.mp h
    obtain ⟨second, hsecond, h⟩ := bind_eq_ok.mp h
    obtain ⟨found₁, hfound, h⟩ := bind_eq_ok.mp h
    obtain ⟨ps, hps, hadd⟩ := ih h
    refine ⟨(first, second) :: ps, .cons ⟨deref_eq_ok.mp hfirst, deref_eq_ok.mp hsecond⟩ hps, ?_⟩
    obtain ⟨a, -, hfound⟩ := bind_eq_ok.mp hfound
    obtain ⟨b, -, hfound⟩ := bind_eq_ok.mp hfound
    split_ifs at hfound
    obtain ⟨table, htable, hfound⟩ := bind_eq_ok.mp hfound
    obtain ⟨summary, -, hfound⟩ := bind_eq_ok.mp hfound
    obtain rfl := pure_eq_ok.mp hfound
    exact bind_eq_ok.mpr ⟨table, htable, hadd⟩

/-- **The table of the pass** is made of the pairs that the race analysis has found. -/
theorem exists_pairs (hra : RaceAnalyze.analyze g = .ok ra) (h : DetectPass.analyze order g = .ok found) :
    ∃ ps, List.Forall₂ g.Points (order.elems ra.getTotalRaceEventPair) ps ∧
      InstRaceTable.empty.addRaces ps = .ok found.raceTable := by
  obtain ⟨ra', hra', h⟩ := bind_eq_ok.mp h
  cases hra.symm.trans hra'
  obtain ⟨found₁, hloop, h⟩ := bind_eq_ok.mp h
  obtain ⟨summary, -, h⟩ := bind_eq_ok.mp h
  obtain ⟨summary', -, h⟩ := bind_eq_ok.mp h
  obtain rfl := pure_eq_ok.mp h
  exact addRaces_of_loop hloop

end Table

/-! ### The fields of what was read -/

section Fields

variable {file : TraceFile} {g : DepGraph} {ra : RaceAnalyze} {order : Traversal} {found : Detected} {e : Event} {i : ℕ}

theorem field_lt (mem : ℕ → UInt8) (off w : ℕ) : field mem off w < 256 ^ w := by
  have h := Nat.ofDigits_lt_base_pow_length (b := 256) (l := (List.range w).map fun i => (mem (off + i)).toNat)
    (by decide) (by
      intro d hd
      obtain ⟨i, -, rfl⟩ := List.mem_map.mp hd
      exact UInt8.toNat_lt _)
  rwa [List.length_map, List.length_range] at h

/-- **An event that was read** has fields of 64 bits. -/
theorem events_fitting (he : e ∈ file.events) :
    e.instUniqueId < 256 ^ 8 ∧ e.timestamp < 256 ^ 8 ∧ e.varAddr < 256 ^ 8 ∧ e.varLen < 256 ^ 8 := by
  obtain ⟨k, -, rfl⟩ := List.mem_map.mp he
  have hlt := fun off => field_lt (fun i => file.bytes.getD (Event.size * k + i) 0) off 8
  exact ⟨hlt 0, hlt 8, hlt 16, hlt 24⟩

/-- A byte of an access is of its instruction. -/
theorem instUniqueId_of_expand {x : Event} (h : x ∈ e.expand) : x.instUniqueId = e.instUniqueId := by
  rcases e.expand_eq with ⟨-, heq⟩ | heq | heq
  · rw [heq] at h
    obtain ⟨pos, -, rfl⟩ := List.mem_map.mp h
    rfl
  · rw [heq] at h
    cases List.mem_singleton.mp h
    rfl
  · rw [heq] at h
    cases h

theorem varAddr_of_expand_lt {x : Event} (h : x ∈ e.expand) (he : e.varAddr < 256 ^ 8) : x.varAddr < 2 ^ 64 := by
  rcases e.expand_eq with ⟨-, heq⟩ | heq | heq
  · rw [heq] at h
    obtain ⟨pos, -, rfl⟩ := List.mem_map.mp h
    exact Nat.mod_lt _ (by decide)
  · rw [heq] at h
    cases List.mem_singleton.mp h
    exact he
  · rw [heq] at h
    cases h

/-- An event of the graph can be printed. -/
theorem printable_of_loaded (hload : loadTrace file.events = .ok g) (hra : RaceAnalyze.analyze g = .ok ra)
    (he : g.totEvents[i]? = some e) : InstRaceTable.Printable e := by
  obtain ⟨f, k, hf, hk, -⟩ := exists_source_of_loaded hload he
  have hmem := List.mem_of_getElem? hk
  obtain ⟨hinst, hts, haddr, -⟩ := events_fitting (List.mem_of_getElem? hf)
  refine ⟨tid_lt_of_analyze hra (List.mem_of_getElem? he), ?_, ?_, varAddr_of_expand_lt hmem haddr⟩
  · rw [Event.timestamp_of_expand hmem]
    exact hts
  · rw [instUniqueId_of_expand hmem]
    exact hinst

/-- **No `assert` stops the pass and its file.** -/
theorem dumped_of_loaded (order : Traversal) (hload : loadTrace file.events = .ok g)
    (hra : RaceAnalyze.analyze g = .ok ra) (hfit : DetectPass.TotalsFit g ra) :
    ∃ found text, DetectPass.analyze order g = .ok found ∧ found.raceTable.dumpFile = .ok text ∧
      DetectPass.dumped order g = .ok (found, text) := by
  obtain ⟨found, hfound, -⟩ := DetectPass.analyze_ok hload hra order hfit
  obtain ⟨ps, hps, htable⟩ := exists_pairs hra hfound
  have hraces : ∀ q ∈ ps, InstRaceTable.Printable q.1 ∧ InstRaceTable.Printable q.2 := by
    intro q hq
    obtain ⟨n, hn⟩ := List.getElem?_of_mem hq
    obtain ⟨p, -, hpoints⟩ := CausalOrder.forall₂_getElem?' hps hn
    exact ⟨printable_of_loaded hload hra hpoints.1, printable_of_loaded hload hra hpoints.2⟩
  have hadd := InstRaceTable.addRaces_ok_iff.mp ⟨_, htable⟩
  obtain ⟨text, htext⟩ : ∃ text, found.raceTable.dumpFile = .ok text := by
    refine InstRaceTable.dumpFile_ok (fun x hx => ?_) fun x hx r hr => ?_
    · -- a key is of the instructions of a pair
      obtain ⟨q, hq, hkey⟩ := Option.map_eq_some_iff.mp
        ((InstRaceTable.headerAt_of_addRaces htable).symm.trans (InstRaceTable.mem_raceTable.mp hx).1)
      obtain ⟨hfirst, hsecond⟩ := hraces q (List.mem_of_find?_eq_some hq)
      rw [← hkey]
      unfold InstRaceTable.keyOf InstRacePair.ofEvents
      split_ifs
      · exact ⟨hsecond.instUniqueId, hfirst.instUniqueId⟩
      · exact ⟨hfirst.instUniqueId, hsecond.instUniqueId⟩
    · obtain ⟨q, hq, -, rfl⟩ := (InstRaceTable.mem_races htable hx).mp hr
      obtain ⟨hfirst, hsecond⟩ := hraces q hq
      refine ⟨hfirst, hsecond, ?_⟩
      obtain hop | hop := Event.isAccessEvent_iff.mp (hadd q hq).access <;> simp [InstRaceTable.raceOf, hop]
  exact ⟨found, text, hfound, htext, bind_eq_ok.mpr ⟨found, hfound, bind_eq_ok.mpr ⟨text, htext, rfl⟩⟩⟩

end Fields

/-! ### What the script reads -/

/-- The key of two events in the script. -/
def scriptKey (e f : Event) : Scripts.InstRace :=
  .init (decimal e.instUniqueId) [e.opLetter] (decimal f.instUniqueId) [f.opLetter]

/-- The race of two events on a byte in the script. -/
def scriptRace (e f : Event) (a : Addr) : Scripts.RuntimeRace where
  firstTid := decimal e.tid
  firstTs := decimal e.timestamp
  firstInstId := decimal e.instUniqueId
  secondTid := decimal f.tid
  secondTs := decimal f.timestamp
  secondInstId := decimal f.instUniqueId
  addr := decimal a

section Read

variable {file : TraceFile} {g : DepGraph} {ra : RaceAnalyze} {pairs : List (ℕ × ℕ)} {ps : List (Event × Event)}
  {e f x y : Event} {i j n m : ℕ} {a : Addr} {k : Scripts.InstRace}

theorem readKey_keyOf : (InstRaceTable.readKey (InstRaceTable.keyOf (e, f))).eq k ↔ (scriptKey e f).eq k := by
  refine Scripts.InstRace.eq_trans_iff ?_
  unfold InstRaceTable.keyOf InstRacePair.ofEvents
  split_ifs
  · exact Scripts.InstRace.eq_init_iff.mpr Sym2.eq_swap
  · exact Scripts.InstRace.eq_init_iff.mpr rfl

/-- What an event of the graph has of its event in the file. -/
theorem fields_of_loaded (hload : loadTrace file.events = .ok g) (hx : g.totEvents[i]? = some x) :
    ∃ e, file.events[x.timestamp]? = some e ∧ e.timestamp = x.timestamp ∧ e.tid = x.tid ∧
      e.instUniqueId = x.instUniqueId := by
  obtain ⟨e, k, he, hk, -⟩ := exists_source_of_loaded hload hx
  have hmem := List.mem_of_getElem? hk
  exact ⟨e, he, (Event.timestamp_of_expand hmem).symm, (Event.tid_of_expand hmem).symm,
    (instUniqueId_of_expand hmem).symm⟩

/-- **One place for one byte**: an access that was read has fewer than `2 ^ 64` bytes. -/
theorem place_unique (hload : loadTrace file.events = .ok g) (hx : g.totEvents[i]? = some x)
    (hy : g.totEvents[j]? = some y) (hacc : x.isAccessEvent) (hts : x.timestamp = y.timestamp)
    (haddr : x.varAddr = y.varAddr) : i = j := by
  obtain ⟨e, k, he, hk, hp⟩ := exists_source_of_loaded hload hx
  obtain ⟨f, l, hf, hl, hq⟩ := exists_source_of_loaded hload hy
  rw [← hts] at hf hq
  cases he.symm.trans hf
  have hmem := List.mem_of_getElem? hk
  have hea : e.isAccessEvent := (Event.covers_iff.mp (Event.covers_of_expand hmem hacc)).1
  obtain ⟨hklt, hxaddr, -⟩ := Event.varAddr_of_expand hea hk
  obtain ⟨hllt, hyaddr, -⟩ := Event.varAddr_of_expand hea hl
  have hlen : e.varLen < 2 ^ 64 := (events_fitting (List.mem_of_getElem? he)).2.2.2
  have heq : Nat.ModEq UInt64.size (e.varAddr + k) (e.varAddr + l) := hxaddr.symm.trans (haddr.trans hyaddr)
  have hkl : k = l := (Nat.ModEq.add_left_cancel' _ heq).eq_of_lt_of_lt (hklt.trans hlen) (hllt.trans hlen)
  subst hkl
  have hij := CausalOrder.kept_lt_iff hp hq
  have hji := CausalOrder.kept_lt_iff hq hp
  omega

variable (hload : loadTrace file.events = .ok g) (hra : RaceAnalyze.analyze g = .ok ra)
  (hps : List.Forall₂ g.Points pairs ps) (hpairs : ∀ p, p ∈ pairs ↔ p ∈ ra.getTotalRaceEventPair)

include hps hpairs

/-- The reported pairs are those that the table is made of. -/
theorem reportedAt_iff_mem : g.ReportedAt ra n m a ↔
    ∃ q ∈ ps, q.1.timestamp = n ∧ q.2.timestamp = m ∧ q.1.varAddr = a := by
  constructor
  · rintro ⟨i, j, x, y, hmem, hx, hy, hn, hm, ha⟩
    obtain ⟨l, hl⟩ := List.getElem?_of_mem ((hpairs _).mpr hmem)
    obtain ⟨q, hq, hpoints⟩ := CausalOrder.forall₂_getElem? hps hl
    obtain rfl : q = (x, y) :=
      Prod.ext (Option.some.inj (hpoints.1.symm.trans hx)) (Option.some.inj (hpoints.2.symm.trans hy))
    exact ⟨_, List.mem_of_getElem? hq, hn, hm, ha⟩
  · rintro ⟨q, hq, hn, hm, ha⟩
    obtain ⟨l, hl⟩ := List.getElem?_of_mem hq
    obtain ⟨p, hp, hpoints⟩ := CausalOrder.forall₂_getElem?' hps hl
    exact ⟨p.1, p.2, q.1, q.2, (hpairs _).mp (List.mem_of_getElem? hp), hpoints.1, hpoints.2, hn, hm, ha⟩

include hload in
/-- A pair of events, in terms of the file. -/
theorem exists_pair_iff {P : Scripts.RuntimeRace → Prop} :
    (∃ q ∈ ps, (InstRaceTable.readKey (InstRaceTable.keyOf q)).eq k ∧ P (InstRaceTable.readRace (InstRaceTable.raceOf q))) ↔
      ∃ n m a e f, g.ReportedAt ra n m a ∧ file.events[n]? = some e ∧ file.events[m]? = some f ∧
        (scriptKey e f).eq k ∧ P (scriptRace e f a) := by
  have hkey : ∀ {e f x y : Event}, e.instUniqueId = x.instUniqueId → f.instUniqueId = y.instUniqueId →
      ((scriptKey e f).eq k ↔ (scriptKey x y).eq k) := by
    intro e f x y he hf
    refine Scripts.InstRace.eq_trans_iff (Scripts.InstRace.eq_init_iff.mpr ?_)
    rw [he, hf]
  constructor
  · rintro ⟨⟨x, y⟩, hq, hk, hP⟩
    obtain ⟨l, hl⟩ := List.getElem?_of_mem hq
    obtain ⟨p, hp, hpoints⟩ := CausalOrder.forall₂_getElem?' hps hl
    obtain ⟨e, he, hets, hetid, heinst⟩ := fields_of_loaded hload hpoints.1
    obtain ⟨f, hf, hfts, hftid, hfinst⟩ := fields_of_loaded hload hpoints.2
    refine ⟨_, _, x.varAddr, e, f, (reportedAt_iff_mem hps hpairs).mpr ⟨_, hq, rfl, rfl, rfl⟩, he, hf, ?_, ?_⟩
    · rw [hkey heinst hfinst]
      exact readKey_keyOf.mp hk
    · rw [scriptRace, hets, hetid, heinst, hfts, hftid, hfinst]
      exact hP
  · rintro ⟨n, m, a, e, f, hrep, he, hf, hk, hP⟩
    obtain ⟨⟨x, y⟩, hq, rfl, rfl, rfl⟩ := (reportedAt_iff_mem hps hpairs).mp hrep
    obtain ⟨l, hl⟩ := List.getElem?_of_mem hq
    obtain ⟨p, hp, hpoints⟩ := CausalOrder.forall₂_getElem?' hps hl
    obtain ⟨e', he', hets, hetid, heinst⟩ := fields_of_loaded hload hpoints.1
    obtain ⟨f', hf', hfts, hftid, hfinst⟩ := fields_of_loaded hload hpoints.2
    cases he.symm.trans he'
    cases hf.symm.trans hf'
    refine ⟨_, hq, readKey_keyOf.mpr ((hkey heinst hfinst).mp hk), ?_⟩
    rw [scriptRace, hets, hetid, heinst, hfts, hftid, hfinst] at hP
    exact hP

include hload hra in
/-- **No pair is read twice.** -/
theorem nodup_scriptRaces (hnodup : pairs.Nodup) :
    (ps.map fun q => InstRaceTable.readRace (InstRaceTable.raceOf q)).Nodup := by
  -- what the script reads for a pair of places
  let F : ℕ × ℕ → Option Scripts.RuntimeRace := fun p => do
    let x ← g.totEvents[p.1]?
    let y ← g.totEvents[p.2]?
    return InstRaceTable.readRace ⟨x, y⟩
  have hF : ∀ {p q}, g.Points p q → F p = some (InstRaceTable.readRace (InstRaceTable.raceOf q)) := by
    rintro p q ⟨hx, hy⟩
    simp only [F, hx, hy, Option.bind_eq_bind, Option.bind_some, Option.pure_def, InstRaceTable.raceOf]
  have hmap : pairs.map F = (ps.map fun q => InstRaceTable.readRace (InstRaceTable.raceOf q)).map some := by
    clear hnodup hpairs
    induction hps with
    | nil => rfl
    | cons hpq _ ih => rw [List.map_cons, List.map_cons, List.map_cons, ih, hF hpq]
  refine List.Nodup.of_map some (hmap ▸ hnodup.map_on fun p hp p' hp' heq => ?_)
  -- the timestamps and the byte of a race tell its places
  obtain ⟨b, hun, -⟩ := (mem_pairs hra).mp ((hpairs p).mp hp)
  obtain ⟨b', hun', -⟩ := (mem_pairs hra).mp ((hpairs p').mp hp')
  obtain ⟨x, y, hx, hy, hxa, hya, hxaddr, hyaddr, -⟩ := hun.accesses
  obtain ⟨x', y', hx', hy', hxa', hya', hxaddr', hyaddr', -⟩ := hun'.accesses
  rw [hF (q := (x, y)) ⟨hx, hy⟩, hF (q := (x', y')) ⟨hx', hy'⟩] at heq
  have hrace := Option.some.inj heq
  have hts : x.timestamp = x'.timestamp := decimal_injective (congrArg Scripts.RuntimeRace.firstTs hrace)
  have hts' : y.timestamp = y'.timestamp := decimal_injective (congrArg Scripts.RuntimeRace.secondTs hrace)
  have haddr : x.varAddr = x'.varAddr := decimal_injective (congrArg Scripts.RuntimeRace.addr hrace)
  have haddr' : y.varAddr = y'.varAddr := hyaddr.trans (hxaddr.symm.trans (haddr.trans (hxaddr'.trans hyaddr'.symm)))
  exact Prod.ext (place_unique hload hx hx' hxa hts haddr) (place_unique hload hy hy' hya hts' haddr')

end Read

/-! ### The whole process -/

/-- A trace of whole records that is loaded, analysed and counted: no test and no `assert` stops the process. -/
structure Analysable (file : TraceFile) (g : DepGraph) (graph : ThreadGraph) (ra : RaceAnalyze) : Prop where
  size : file.bytes.length ≤ 3 * giga
  whole : Event.size ∣ file.bytes.length
  /-- No call is logged. -/
  calls : ∀ e ∈ file.events, e.opTy ≠ .call
  load : loadTrace file.events = .ok g
  counted : g.buildGraphImpl = .ok graph
  threads : graph.getNrThread < MAX_THREAD
  races : RaceAnalyze.analyze g = .ok ra
  fits : DetectPass.TotalsFit g ra

section Process

variable {file : TraceFile} {g : DepGraph} {graph : ThreadGraph} {ra : RaceAnalyze} {rounds noStat : ℕ}
  {open? : Scripts.Str → Option TraceFile} {base : Scripts.Str} {k : Scripts.InstRace} {r : Scripts.RuntimeRace}

theorem endswith_append (s ending : Scripts.Str) : Aux.endswith (s ++ ending) ending = true := by
  rw [Aux.endswith, if_neg (by simp)]
  exact decide_eq_true (List.suffix_append s ending)

/-- The name of the race file. -/
theorem getRaceName_append : getRaceName (base ++ ".trace".toList) = base ++ ".race".toList := by
  have htrace : ".trace".toList = ['.'] ++ "trace".toList := rfl
  have hrace : ".race".toList = ['.'] ++ "race".toList := rfl
  rw [getRaceName, htrace, hrace, ← List.append_assoc, ← List.append_assoc, replaceLast_append (by decide)]

/-- The loop over the bytes ends with the graph. -/
theorem buildGraph_of_loaded (junk : ℕ → ℕ → UInt8) (hdvd : Event.size ∣ file.bytes.length)
    (hrounds : file.nrRecord ≤ rounds) (hload : loadTrace file.events = .ok g) (hgraph : g.buildGraphImpl = .ok graph) :
    DepGraph.buildGraph junk rounds file = some (.ok (g, graph)) := by
  obtain ⟨hended, ⟨hab, hfinish⟩ | ⟨-, hno⟩⟩ := TraceFile.run_whole hdvd junk
  · have hrun := LoadRun.run_of_ended hended hrounds
    have heof : (LoadRun.run file junk file.nrRecord).parser.isEOF.1 = true :=
      hended.resolve_left (by rw [hab]; exact Bool.false_ne_true)
    obtain rfl := Except.ok.inj (hfinish.symm.trans hload)
    rw [DepGraph.buildGraph, hrun]
    simp only [hab, heof, if_true, hgraph]
    rfl
  · exact absurd hload (hno g)

/-- **The process on a trace**: it writes the file of a table that is made of the pairs that were found. -/
theorem main_writes (order : Traversal) (junk : ℕ → ℕ → UInt8) (hfile : open? (base ++ ".trace".toList) = some file)
    (hrounds : file.nrRecord ≤ rounds) (h : Analysable file g graph ra) :
    ∃ text found ps, Detect.main order junk rounds noStat open? [base ++ ".trace".toList] =
        .reported (base ++ ".race".toList) text found ∧ found.raceTable.dumpFile = .ok text ∧
      List.Forall₂ g.Points (order.elems ra.getTotalRaceEventPair) ps ∧
        InstRaceTable.empty.addRaces ps = .ok found.raceTable := by
  obtain ⟨found, text, hfound, htext, hdumped⟩ := dumped_of_loaded order h.load h.races h.fits
  obtain ⟨ps, hps, htable⟩ := exists_pairs h.races hfound
  refine ⟨text, found, ps, ?_, htext, hps, htable⟩
  rw [Detect.main, hfile, Option.map_some, Option.getD_some, endswith_append, Bool.not_true, if_neg Bool.false_ne_true,
    if_neg (not_lt.mpr h.size)]
  simp only [buildGraph_of_loaded junk h.whole hrounds h.load h.counted, h.threads, not_true_eq_false, if_false, hdumped,
    getRaceName_append]

/-- **What the script looks up** in the file of such a table. -/
theorem lookups_of_table {order : Traversal} {found : Detected} {ps : List (Event × Event)} {text : Scripts.Str}
    (h : Analysable file g graph ra) (htext : found.raceTable.dumpFile = .ok text)
    (hps : List.Forall₂ g.Points (order.elems ra.getTotalRaceEventPair) ps)
    (htable : InstRaceTable.empty.addRaces ps = .ok found.raceTable) (targets : List Scripts.InstRace) :
    ∃ runRaces, Scripts.loadRuntimeRace targets text = some runRaces ∧ ∀ k,
      (Scripts.lookupRaces runRaces k).Nodup ∧ ∀ r, r ∈ Scripts.lookupRaces runRaces k ↔ targets.any (k.eq ·) ∧
        ∃ n m a e f, FileRace file.events n m a ∧ file.events[n]? = some e ∧ file.events[m]? = some f ∧
          (scriptKey e f).eq k ∧ scriptRace e f a = r := by
  have hpairs : ∀ p, p ∈ order.elems ra.getTotalRaceEventPair ↔ p ∈ ra.getTotalRaceEventPair :=
    fun p => Traversal.mem_elems
  have hnodup : (order.elems ra.getTotalRaceEventPair).Nodup := by
    rw [← Multiset.coe_nodup, order.elems_eq]
    exact ra.getTotalRaceEventPair.nodup
  refine ⟨_, InstRaceTable.loadRuntimeRace_targets htext, fun k => ⟨?_, fun r => ?_⟩⟩
  · exact InstRaceTable.nodup_lookupRaces htable (nodup_scriptRaces h.load h.races hps hpairs hnodup)
  · rw [InstRaceTable.mem_lookupRaces_iff htable, exists_pair_iff h.load hps hpairs (P := fun r' => r' = r)]
    simp only [reportedAt_iff h.load h.calls h.races]

/-- **The whole process.** Of a trace that can be analysed, whatever memory holds, the process writes the race file, and for
any targets the script reads it: under the key of two instructions that is a target, it finds the races of the file
between the two, each once, with the threads, the timestamps and the byte; and under any other key it finds nothing. -/
theorem main_reports (order : Traversal) (junk : ℕ → ℕ → UInt8) (hfile : open? (base ++ ".trace".toList) = some file)
    (hrounds : file.nrRecord ≤ rounds) (h : Analysable file g graph ra) :
    ∃ text found, Detect.main order junk rounds noStat open? [base ++ ".trace".toList] =
        .reported (base ++ ".race".toList) text found ∧
      ∀ targets, ∃ runRaces, Scripts.loadRuntimeRace targets text = some runRaces ∧ ∀ k,
        (Scripts.lookupRaces runRaces k).Nodup ∧ ∀ r, r ∈ Scripts.lookupRaces runRaces k ↔ targets.any (k.eq ·) ∧
          ∃ n m a e f, FileRace file.events n m a ∧ file.events[n]? = some e ∧ file.events[m]? = some f ∧
            (scriptKey e f).eq k ∧ scriptRace e f a = r := by
  obtain ⟨text, found, ps, hmain, htext, hps, htable⟩ := main_writes order junk hfile hrounds h
  exact ⟨text, found, hmain, lookups_of_table h htext hps htable⟩

/-- The bytes of `overlapFile`, with zeros for padding. -/
theorem overlapFile_stored : ∃ file : TraceFile, file.events = overlapFile ∧ file.bytes.length = 80 := by
  obtain ⟨bytes, h, hbytes⟩ := exists_stored (fun _ _ => 0) (show ∀ e ∈ overlapFile, e.Storable by decide)
  exact ⟨⟨bytes, by rw [hbytes]; decide⟩, events_of_stored h _ (by decide), hbytes⟩

/-- A short trace that is loaded and analysed. -/
theorem analysable_of_short (hload : loadTrace file.events = .ok g) (hra : RaceAnalyze.analyze g = .ok ra)
    (hcounted : g.buildGraphImpl = .ok graph) (hthreads : graph.getNrThread < MAX_THREAD)
    (hcalls : ∀ e ∈ file.events, e.opTy ≠ .call) (hwhole : file.bytes.length = Event.size * file.events.length)
    (hshort : file.events.length ≤ 4) (htot : g.totEvents.length ≤ 4) : Analysable file g graph ra where
  size := by
    rw [hwhole, Event.size, giga]
    omega
  whole := hwhole ▸ Nat.dvd_mul_right _ _
  calls := hcalls
  load := hload
  counted := hcounted
  threads := hthreads
  races := hra
  fits := DetectPass.totalsFit_of_short hload hra htot hshort (by decide)

theorem analysable_overlapFile (hevents : file.events = overlapFile) (hlen : file.bytes.length = 80) :
    ∃ g graph ra, Analysable file g graph ra := by
  obtain ⟨g, ra, hload, hra⟩ := overlapFile_analyzed
  obtain ⟨graph, hgraph, hthreads⟩ : ∃ graph, g.buildGraphImpl = .ok graph ∧ graph.getNrThread < MAX_THREAD := by
    obtain rfl : _ = g := Except.ok.inj hload
    exact ⟨_, rfl, by decide⟩
  have hshort : g.totEvents.length ≤ 4 := by
    obtain rfl : _ = g := Except.ok.inj hload
    decide
  rw [← hevents] at hload
  exact ⟨g, graph, ra, analysable_of_short hload hra hgraph hthreads (by rw [hevents]; decide) (by rw [hevents]; exact hlen)
    (by rw [hevents]; decide) hshort⟩

theorem main_reports_overlapFile : ∃ (file : TraceFile) (text : Scripts.Str) (found : Detected),
    file.events = overlapFile ∧ Detect.main .byPlace (fun _ _ => 0) 2 0 (fun _ => some file) ["a.trace".toList] =
        .reported ("a".toList ++ ".race".toList) text found ∧
      ∀ targets, ∃ runRaces, Scripts.loadRuntimeRace targets text = some runRaces ∧ ∀ k,
        (Scripts.lookupRaces runRaces k).Nodup ∧ ∀ r, r ∈ Scripts.lookupRaces runRaces k ↔ targets.any (k.eq ·) ∧
          ∃ n m a e f, FileRace file.events n m a ∧ file.events[n]? = some e ∧ file.events[m]? = some f ∧
            (scriptKey e f).eq k ∧ scriptRace e f a = r := by
  obtain ⟨file, hevents, hlen⟩ := overlapFile_stored
  obtain ⟨g, graph, ra, h⟩ := analysable_overlapFile hevents hlen
  obtain ⟨text, found, hmain⟩ := @main_reports file g graph ra 2 0 (fun _ => some file) "a".toList .byPlace
    (fun _ _ => 0) rfl (by rw [TraceFile.nrRecord, hlen]; decide) h
  exact ⟨file, text, found, hevents, hmain⟩

end Process

end Schnauzer
