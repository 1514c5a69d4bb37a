import Mathlib.Data.Nat.Find
import Schnauzer.Depgraph.ExpandedTrace

/-!
# The races of a trace file

`loadTrace` expands each access into bytes and drops most of them, and `RaceAnalyze` runs on what is left. Seen from
outside, the detector takes a file of accesses to ranges of bytes. This says which slots of the file it reports.

## What is proved

* `reportedAt_iff` — **the report, in terms of the file**: two accesses that have a byte in common, one of them a
  store, that are not ordered and have no store to the byte in between.
* `detector_exact` — for which files there is a report.
-/

namespace Schnauzer

open CausalOrder RaceAnalyze

/-- A pair is reported that is byte `a` of the accesses in slots `n` and `m` of the file. -/
def DepGraph.ReportedAt (g : DepGraph) (ra : RaceAnalyze) (n m : ℕ) (a : Addr) : Prop :=
  ∃ i j x y, (i, j) ∈ ra.getTotalRaceEventPair ∧ g.totEvents[i]? = some x ∧ g.totEvents[j]? = some y ∧
    x.timestamp = n ∧ y.timestamp = m ∧ x.varAddr = a

/-- The accesses in slots `n` and `m` race on byte `a`, and no store to it lies in between. -/
structure FileRace (file : List Event) (n m : ℕ) (a : Addr) : Prop where
  lt : n < m
  accesses : ∃ e f, file[n]? = some e ∧ file[m]? = some f ∧ e.covers a ∧ f.covers a ∧ (e.opTy = .st ∨ f.opTy = .st)
  unordered : ¬ HappensBefore file n m
  last : ∀ l f, n < l → l < m → file[l]? = some f → f.covers a → f.opTy ≠ .st

namespace Event

variable {e x : Event} {a : Addr} {k : ℕ}

/-- The bytes of an access. -/
theorem getElem?_expand (h : e.isAccessEvent) (hk : k < e.varLen) :
    e.expand[k]? = some (e.expandArrayAccessEvent k) := by
  rw [expand_of_access h, List.getElem?_map, List.getElem?_range hk, Option.map_some]

/-- The place of byte `a` in an access. -/
theorem covers_iff : e.covers a ↔ e.isAccessEvent ∧ ∃ k < e.varLen, (e.varAddr + k) % UInt64.size = a := by
  unfold covers bytesCover
  rw [Bool.and_eq_true_iff, List.any_eq_true]
  constructor
  · rintro ⟨hacc, k, hk, heq⟩
    exact ⟨hacc, k, List.mem_range.mp hk, of_decide_eq_true heq⟩
  · rintro ⟨hacc, k, hk, heq⟩
    exact ⟨hacc, k, List.mem_range.mpr hk, decide_eq_true heq⟩

/-- The byte at a place. -/
theorem varAddr_of_expand (h : e.isAccessEvent) (hx : e.expand[k]? = some x) :
    k < e.varLen ∧ x.varAddr = (e.varAddr + k) % UInt64.size ∧ x.isAccessEvent := by
  have hlen := (List.getElem?_eq_some_iff.mp hx).1
  rw [expand_of_access h, List.length_map, List.length_range] at hlen
  rw [getElem?_expand h hlen] at hx
  cases hx
  exact ⟨hlen, rfl, h⟩

/-- The first place of a byte in an access. -/
theorem exists_first_byte (h : e.covers a) : ∃ (k : ℕ) (x : Event), e.expand[k]? = some x ∧ x.isAccessEvent ∧ x.varAddr = a ∧
    ∀ (k' : ℕ) (y : Event), k' < k → e.expand[k']? = some y → y.varAddr ≠ a := by
  obtain ⟨hacc, hex⟩ := covers_iff.mp h
  obtain ⟨hlt, heq⟩ := Nat.find_spec hex
  refine ⟨Nat.find hex, _, getElem?_expand hacc hlt, hacc, heq, fun k' y hk' hy haddr => ?_⟩
  obtain ⟨hlen, hy, -⟩ := varAddr_of_expand hacc hy
  exact Nat.find_min hex hk' ⟨hlen, hy.symm.trans haddr⟩

/-- The last one: an access of more than `2 ^ 64` bytes has a byte at several places. -/
theorem exists_last_byte (h : e.covers a) : ∃ (k : ℕ) (x : Event), e.expand[k]? = some x ∧ x.isAccessEvent ∧ x.varAddr = a ∧
    ∀ (k' : ℕ) (y : Event), k < k' → e.expand[k']? = some y → y.varAddr ≠ a := by
  obtain ⟨hacc, k₀, hk₀, h₀⟩ := covers_iff.mp h
  have hspec := Nat.findGreatest_spec (P := fun k => k < e.varLen ∧ (e.varAddr + k) % UInt64.size = a) hk₀.le
    ⟨hk₀, h₀⟩
  refine ⟨_, _, getElem?_expand hacc hspec.1, hacc, hspec.2, fun k' y hk' hy haddr => ?_⟩
  obtain ⟨hlen, hy, -⟩ := varAddr_of_expand hacc hy
  exact Nat.findGreatest_is_greatest hk' hlen.le ⟨hlen, hy.symm.trans haddr⟩

end Event

section File

variable {file : List Event} {g : DepGraph} {ra : RaceAnalyze} {i j n m : ℕ} {a : Addr}

/-- **From the bytes to the file.** -/
theorem fileRace_of_expanded (hne : ∀ e ∈ file, e.expand ≠ []) {p q : ℕ}
    (hun : UnorderedConflict (expandTrace file) a p q) (hno : NoStoreBetween (expandTrace file) a p q) :
    ∃ n m e f k k', file[n]? = some e ∧ file[m]? = some f ∧ k < e.expand.length ∧ k' < f.expand.length ∧
      p = startOf Event.expand file n + k ∧ q = startOf Event.expand file m + k' ∧ FileRace file n m a := by
  obtain ⟨x, y, hx, hy, hxa, hya, hxaddr, hyaddr, hst⟩ := hun.accesses
  have htid : x.tid ≠ y.tid := fun htid => hun.unordered (happensBefore_of_tid_eq hun.lt hx hy htid)
  obtain ⟨n, e, k, hn, hk, rfl⟩ := exists_source hx
  obtain ⟨m, f, k', hm, hk', rfl⟩ := exists_source hy
  have hxe := List.mem_of_getElem? hk
  have hyf := List.mem_of_getElem? hk'
  have hklt := (List.getElem?_eq_some_iff.mp hk).1
  have hklt' := (List.getElem?_eq_some_iff.mp hk').1
  have hnm : n ≠ m := by
    rintro rfl
    cases hn.symm.trans hm
    exact htid ((Event.tid_of_expand hxe).trans (Event.tid_of_expand hyf).symm)
  have hlt : n < m := ((source_lt_iff hn hklt hm hklt').mp hun.lt).resolve_right fun h => hnm h.1
  refine ⟨n, m, e, f, k, k', hn, hm, hklt, hklt', rfl, rfl, hlt, ⟨e, f, hn, hm, ?_, ?_, ?_⟩, fun hb => ?_, ?_⟩
  · exact hxaddr ▸ Event.covers_of_expand hxe hxa
  · exact hyaddr ▸ Event.covers_of_expand hyf hya
  · rwa [← Event.opTy_of_expand hxe, ← Event.opTy_of_expand hyf]
  · exact hun.unordered ((happensBefore_expand hne hnm hn hklt hm hklt').mpr hb)
  · -- a store to the byte in between leaves a byte in between
    intro l w hnl hlm hw hcov hopw
    obtain ⟨kw, z, hz, -, hzaddr, -⟩ := Event.exists_first_byte hcov
    have hkw := (List.getElem?_eq_some_iff.mp hz).1
    exact hno _ z ((source_lt_iff hn hklt hw hkw).mpr (Or.inl hnl)) ((source_lt_iff hw hkw hm hklt').mpr (Or.inl hlm))
      (getElem?_startOf hw hz) ((Event.opTy_of_expand (List.mem_of_getElem? hz)).trans hopw) hzaddr

/-- **From the file to the bytes**: the last place of the byte in the one access and the first in the other. -/
theorem expanded_of_fileRace (hne : ∀ e ∈ file, e.expand ≠ []) (h : FileRace file n m a) :
    ∃ k k' x y, (∃ e, file[n]? = some e ∧ e.expand[k]? = some x) ∧ (∃ f, file[m]? = some f ∧ f.expand[k']? = some y) ∧
      UnorderedConflict (expandTrace file) a (startOf Event.expand file n + k) (startOf Event.expand file m + k') ∧
      NoStoreBetween (expandTrace file) a (startOf Event.expand file n + k) (startOf Event.expand file m + k') := by
  obtain ⟨e, f, hn, hm, hcov, hcov', hst⟩ := h.accesses
  obtain ⟨k, x, hx, hxa, hxaddr, hafter⟩ := Event.exists_last_byte hcov
  obtain ⟨k', y, hy, hya, hyaddr, hbefore⟩ := Event.exists_first_byte hcov'
  have hk := (List.getElem?_eq_some_iff.mp hx).1
  have hk' := (List.getElem?_eq_some_iff.mp hy).1
  refine ⟨k, k', x, y, ⟨e, hn, hx⟩, ⟨f, hm, hy⟩, ⟨?_, ⟨x, y, getElem?_startOf hn hx, getElem?_startOf hm hy, hxa, hya,
    hxaddr, hyaddr, ?_⟩, fun hb => ?_⟩, ?_⟩
  · exact (source_lt_iff hn hk hm hk').mpr (Or.inl h.lt)
  · rwa [Event.opTy_of_expand (List.mem_of_getElem? hx), Event.opTy_of_expand (List.mem_of_getElem? hy)]
  · exact h.unordered ((happensBefore_expand hne h.lt.ne hn hk hm hk').mp hb)
  · intro p z hp hp' hz hopz hzaddr
    obtain ⟨l, w, kw, hw, hkz, rfl⟩ := exists_source hz
    have hkw := (List.getElem?_eq_some_iff.mp hkz).1
    have hzmem := List.mem_of_getElem? hkz
    have hzacc : z.isAccessEvent := Event.isAccessEvent_iff.mpr (Or.inr hopz)
    rcases (source_lt_iff hn hk hw hkw).mp hp with hnl | ⟨rfl, hkk⟩
    · rcases (source_lt_iff hw hkw hm hk').mp hp' with hlm | ⟨rfl, hkk⟩
      · exact h.last l w hnl hlm hw (hzaddr ▸ Event.covers_of_expand hzmem hzacc)
          ((Event.opTy_of_expand hzmem).symm.trans hopz)
      · cases hw.symm.trans hm
        exact hbefore _ _ hkk hkz hzaddr
    · cases hw.symm.trans hn
      exact hafter _ _ hkk hkz hzaddr

/-- **The report of the detector, in terms of the file.** -/
theorem reportedAt_iff (hload : loadTrace file = .ok g) (hcall : ∀ e ∈ file, e.opTy ≠ .call)
    (hra : analyze g = .ok ra) : g.ReportedAt ra n m a ↔ FileRace file n m a := by
  have hne := expand_ne_nil_of_loaded hload hcall
  obtain ⟨htot, hshared, -⟩ := loadTrace_eq_ok hload
  have hstamp : ∀ {n k : ℕ} {e x : Event}, file[n]? = some e → e.expand[k]? = some x → x.timestamp = n :=
    fun hn hk => (Event.timestamp_of_expand (List.mem_of_getElem? hk)).trans (loadable_of_loaded hload hn).timestamp
  constructor
  · rintro ⟨i, j, x, y, hmem, hx, hy, rfl, rfl, rfl⟩
    obtain ⟨e, k, hn, hk, hp⟩ := exists_source_of_loaded hload hx
    obtain ⟨f, k', hm, hk', hq⟩ := exists_source_of_loaded hload hy
    obtain ⟨a, -, hun, hno⟩ := (mem_reportedIn_loaded hload hra).mp ⟨i, j, hmem, hp, hq⟩
    obtain ⟨z, -, hz, -, -, -, hza, -⟩ := hun.accesses
    cases (getElem?_startOf hn hk).symm.trans hz
    obtain ⟨n, m, e', f', l, l', hn', hm', hl, hl', hpn, hqm, hrace⟩ := fileRace_of_expanded hne hun hno
    obtain rfl := source_unique hn (List.getElem?_eq_some_iff.mp hk).1 hn' hl hpn
    obtain rfl := source_unique hm (List.getElem?_eq_some_iff.mp hk').1 hm' hl' hqm
    exact hza ▸ hrace
  · intro h
    obtain ⟨k, k', x, y, ⟨e, hn, hx⟩, ⟨f, hm, hy⟩, hun, hno⟩ := expanded_of_fileRace hne h
    obtain ⟨x', -, hx', -, hxa, -, hxaddr, -⟩ := hun.accesses
    cases (getElem?_startOf hn hx).symm.trans hx'
    have hsync : a ∉ g.syncVars := by
      refine hxaddr ▸ not_syncVar_of_ok hra ?_ hxa
      rw [htot, List.mem_filter]
      exact ⟨List.mem_of_getElem? hx', (keeps_of_access hxa).mpr ((hshared _).mpr (hxaddr.symm ▸ hun.sharedIn))⟩
    obtain ⟨i, j, hmem, hi, hj⟩ := (mem_reportedIn_loaded hload hra).mpr ⟨a, hsync, hun, hno⟩
    refine ⟨i, j, x, y, hmem, ?_, ?_, hstamp hn hx, hstamp hm hy, hxaddr⟩
    · rw [htot, getElem?_filter hi]
      exact getElem?_startOf hn hx
    · rw [htot, getElem?_filter hj]
      exact getElem?_startOf hm hy

/-- **The detector on a file**: of a file whose events are each of a kind and at their place, with thread ids in range,
the report is the races of the file, unless an address that is shared is synchronised on; then there is none. -/
theorem detector_exact (hfile : ∀ i e, file[i]? = some e → Loadable i e) (htid : ∀ e ∈ file, e.tid < MAX_THREAD)
    (hremote : ∀ e ∈ file, e.isThreadOpEvent → e.remoteTid < MAX_THREAD) (hcall : ∀ e ∈ file, e.opTy ≠ .call) :
    ((∃ g ra, loadTrace file = .ok g ∧ analyze g = .ok ra) ↔
        ¬ ∃ a, SharedIn (expandTrace file) a ∧ SyncIn (expandTrace file) a) ∧
      ∀ g ra, loadTrace file = .ok g → analyze g = .ok ra → ∀ n m a, g.ReportedAt ra n m a ↔ FileRace file n m a := by
  obtain ⟨g, hload⟩ := (loadTrace_ok_iff fun e he => (htid e he).trans (by decide)).mpr hfile
  refine ⟨?_, fun g ra hload hra n m a => reportedAt_iff hload hcall hra⟩
  rw [← analyze_loaded_ok_iff hload htid hremote]
  constructor
  · rintro ⟨g', ra, hload', hra⟩
    cases hload.symm.trans hload'
    exact ⟨ra, hra⟩
  · rintro ⟨ra, hra⟩
    exact ⟨g, ra, hload, hra⟩

/-- Thread 1 stores to bytes 8 to 15, and thread 2 loads bytes 12 and 13. -/
def overlapFile : List Event :=
  [.makeArrayAccessEvent 1 0 1 .st 8 8, .makeArrayAccessEvent 2 1 2 .ld 12 2]

/-- The file is loaded and analysed. -/
theorem overlapFile_analyzed : ∃ g ra, loadTrace overlapFile = .ok g ∧ analyze g = .ok ra := by
  obtain ⟨g, hg⟩ : ∃ g, loadTrace overlapFile = .ok g := exists_loadTrace (by decide)
  obtain ⟨ra, hra⟩ := exists_analyze hg (by decide) (by decide) (by decide)
  exact ⟨g, ra, hg, hra⟩

theorem detector_exact_overlapFile :
    ((∃ g ra, loadTrace overlapFile = .ok g ∧ analyze g = .ok ra) ↔
        ¬ ∃ a, SharedIn (expandTrace overlapFile) a ∧ SyncIn (expandTrace overlapFile) a) ∧
      ∀ g ra, loadTrace overlapFile = .ok g → analyze g = .ok ra →
        ∀ n m a, g.ReportedAt ra n m a ↔ FileRace overlapFile n m a := by
  refine detector_exact (fun i e he => ?_) (by decide) (by decide) (by decide)
  obtain ⟨g, -, hg, -⟩ := overlapFile_analyzed
  exact loadable_of_loaded hg he

end File

end Schnauzer
