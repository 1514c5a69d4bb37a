import Schnauzer.Depgraph.Filter
import Schnauzer.Lib.ExpandedHistory

/-!
# Reported pairs and the events of the file

The analysis runs on bytes: `loadTrace` expands each access. A pair that is reported comes from two accesses of the
file that have a byte in common, and these are not ordered either.

## What is proved

* `happensBefore_expand` — events of the file and the bytes that come from them are ordered alike.
* `reported_source` — **the accesses of a reported pair**, in the file.
* `timestamp_lt` — the timestamps of the events of the graph.
* `clocksOrder_iff` — **the clocks of two accesses** and the order of the file.
-/

namespace Schnauzer

open CausalOrder RaceAnalyze

/-- Byte `a` is among the `len` bytes from `addr` on; an address is 64 bits. -/
def bytesCover (addr : Addr) (len : ℕ) (a : Addr) : Bool :=
  (List.range len).any fun pos => (addr + pos) % UInt64.size = a

/-- The event accesses byte `a`. -/
def Event.covers (e : Event) (a : Addr) : Bool := e.isAccessEvent && bytesCover e.varAddr e.varLen a

namespace Event

variable {e x : Event} {a : Addr}

/-- What an event is expanded into. -/
theorem expand_eq (e : Event) : e.isAccessEvent ∧ e.expand = (List.range e.varLen).map e.expandArrayAccessEvent ∨
    e.expand = [e] ∨ e.expand = [] := by
  unfold expand
  split_ifs with hs ha ht
  · exact Or.inr (Or.inl rfl)
  · exact Or.inl ⟨ha, rfl⟩
  · exact Or.inr (Or.inl rfl)
  · exact Or.inr (Or.inr rfl)

/-- The bytes of an access read what it reads. -/
theorem reads_expandArrayAccessEvent (h : e.isAccessEvent) (pos : ℕ) :
    (e.expandArrayAccessEvent pos).reads = e.reads := by
  ext y
  have hop := isAccessEvent_iff.mp h
  have hacq : e.isSyncAcqEvent = false := by rcases hop with h | h <;> simp [isSyncAcqEvent, h]
  have hacq' : (e.expandArrayAccessEvent pos).isSyncAcqEvent = false := hacq
  simp only [reads, hacq, hacq', Bool.false_eq_true, false_and, or_false]
  rfl

/-- And write what it writes. -/
theorem writes_expandArrayAccessEvent (h : e.isAccessEvent) (pos : ℕ) :
    (e.expandArrayAccessEvent pos).writes = e.writes := by
  ext y
  have hop := isAccessEvent_iff.mp h
  have hrel : e.isSyncRelEvent = false := by rcases hop with h | h <;> simp [isSyncRelEvent, h]
  have hrel' : (e.expandArrayAccessEvent pos).isSyncRelEvent = false := hrel
  simp only [writes, hrel, hrel', Bool.false_eq_true, false_and, or_false]
  rfl

/-- What an event is expanded into keeps its thread, its operation and its timestamp. -/
theorem same_of_expand (h : x ∈ e.expand) : x.tid = e.tid ∧ x.opTy = e.opTy ∧ x.timestamp = e.timestamp := by
  rcases e.expand_eq with ⟨-, heq⟩ | heq | heq
  · rw [heq] at h
    obtain ⟨pos, -, rfl⟩ := List.mem_map.mp h
    exact ⟨rfl, rfl, rfl⟩
  · rw [heq] at h
    cases List.mem_singleton.mp h
    exact ⟨rfl, rfl, rfl⟩
  · rw [heq] at h
    cases h

theorem tid_of_expand (h : x ∈ e.expand) : x.tid = e.tid := (same_of_expand h).1

theorem opTy_of_expand (h : x ∈ e.expand) : x.opTy = e.opTy := (same_of_expand h).2.1

theorem timestamp_of_expand (h : x ∈ e.expand) : x.timestamp = e.timestamp := (same_of_expand h).2.2

/-- A byte of an access. -/
theorem covers_of_expand (h : x ∈ e.expand) (hx : x.isAccessEvent) : e.covers x.varAddr := by
  have hacc : e.isAccessEvent := by
    rcases e.expand_eq with ⟨hacc, -⟩ | heq | heq
    · exact hacc
    · rw [heq] at h
      cases List.mem_singleton.mp h
      exact hx
    · rw [heq] at h
      cases h
  rw [expand_of_access hacc] at h
  obtain ⟨pos, hpos, rfl⟩ := List.mem_map.mp h
  refine Bool.and_eq_true_iff.mpr ⟨hacc, List.any_eq_true.mpr ⟨pos, hpos, ?_⟩⟩
  exact decide_eq_true rfl

end Event

/-- An event that is accepted, and no call, is expanded into some event. -/
theorem Loadable.expand_ne_nil {k : ℕ} {e : Event} (h : Loadable k e) (hcall : e.opTy ≠ .call) : e.expand ≠ [] := by
  unfold Event.expand
  split_ifs with hs ha ht
  · exact List.cons_ne_nil _ _
  · intro hnil
    have hlen := h.length ha
    rw [List.map_eq_nil_iff, List.range_eq_nil] at hnil
    exact absurd hnil hlen.ne'
  · exact List.cons_ne_nil _ _
  · rcases h.kind with hk | hk | hk | hk
    · exact absurd hk hs
    · exact absurd hk ha
    · exact absurd hk ht
    · exact absurd (by simpa [Event.isFuncCallEvent] using hk) hcall

section File

variable {file : List Event} {g : DepGraph} {ra : RaceAnalyze} {i j k k' n m : ℕ} {a : Addr} {e f : Event}

/-- A file whose events are accepted. -/
theorem expand_ne_nil_of_loaded (hload : loadTrace file = .ok g) (hcall : ∀ e ∈ file, e.opTy ≠ .call) :
    ∀ e ∈ file, e.expand ≠ [] := by
  intro e he
  obtain ⟨n, hn⟩ := List.mem_iff_getElem?.mp he
  exact (loadable_of_loaded hload hn).expand_ne_nil (hcall e he)

theorem sameNodes_reads : SameNodes Event.expand Event.reads Event.reads file := by
  intro e _ x hx
  rcases e.expand_eq with ⟨hacc, heq⟩ | heq | heq
  · rw [heq] at hx
    obtain ⟨pos, -, rfl⟩ := List.mem_map.mp hx
    exact Event.reads_expandArrayAccessEvent hacc pos
  · rw [heq] at hx
    cases List.mem_singleton.mp hx
    rfl
  · rw [heq] at hx
    cases hx

theorem sameNodes_writes : SameNodes Event.expand Event.writes Event.writes file := by
  intro e _ x hx
  rcases e.expand_eq with ⟨hacc, heq⟩ | heq | heq
  · rw [heq] at hx
    obtain ⟨pos, -, rfl⟩ := List.mem_map.mp hx
    exact Event.writes_expandArrayAccessEvent hacc pos
  · rw [heq] at hx
    cases List.mem_singleton.mp hx
    rfl
  · rw [heq] at hx
    cases hx

/-- **Events of the file and their bytes** are ordered alike. -/
theorem happensBefore_expand (hne : ∀ e ∈ file, e.expand ≠ []) (hnm : n ≠ m) (hn : file[n]? = some e)
    (hk : k < e.expand.length) (hm : file[m]? = some f) (hk' : k' < f.expand.length) :
    HappensBefore (expandTrace file) (startOf Event.expand file n + k) (startOf Event.expand file m + k') ↔
      HappensBefore file n m := by
  constructor
  · intro hb
    exact (BeforeIn.source sameNodes_reads sameNodes_writes hb hn hk hm hk').resolve_left hnm
  · intro hb
    exact BeforeIn.expand sameNodes_reads sameNodes_writes hne hb hn hk hm hk'

/-- **The accesses of a reported pair**, in the file: two threads access a byte, without an order. -/
theorem reported_source (hne : ∀ e ∈ file, e.expand ≠ []) (hload : loadTrace file = .ok g)
    (hra : analyze g = .ok ra) (hmem : (i, j) ∈ ra.getTotalRaceEventPair) :
    ∃ a n m e f, n < m ∧ file[n]? = some e ∧ file[m]? = some f ∧ e.covers a ∧ f.covers a ∧ e.tid ≠ f.tid ∧
      ¬ HappensBefore file n m ∧ ∀ k x, k = i ∨ k = j → g.totEvents[k]? = some x → x.varAddr = a := by
  obtain ⟨htot, -, -⟩ := loadTrace_eq_ok hload
  obtain ⟨a, hun, -⟩ := (mem_pairs hra).mp hmem
  obtain ⟨x, y, hx, hy, hxa, hya, hxaddr, hyaddr, -⟩ := hun.accesses
  -- the places among all the expanded events
  rw [htot] at hx hy
  obtain ⟨p, hp, hx'⟩ := exists_kept hx
  obtain ⟨q, hq, hy'⟩ := exists_kept hy
  have hunAll : UnorderedConflict (expandTrace file) a p q :=
    (unorderedConflict_filter (dropsAccesses_keeps g.sharedVars) hp hq).mp (htot ▸ hun)
  have htid : x.tid ≠ y.tid := fun htid => hunAll.unordered (happensBefore_of_tid_eq hunAll.lt hx' hy' htid)
  -- the places in the file
  obtain ⟨n, e, kn, hn, hkn, rfl⟩ := exists_source hx'
  obtain ⟨m, f, km, hm, hkm, rfl⟩ := exists_source hy'
  have hxe := List.mem_of_getElem? hkn
  have hyf := List.mem_of_getElem? hkm
  have hkn' := (List.getElem?_eq_some_iff.mp hkn).1
  have hkm' := (List.getElem?_eq_some_iff.mp hkm).1
  rw [Event.tid_of_expand hxe, Event.tid_of_expand hyf] at htid
  have hne' : n ≠ m := by
    rintro rfl
    exact htid (congrArg Event.tid (Option.some.inj (hn.symm.trans hm)))
  have hlt : n < m := ((source_lt_iff hn hkn' hm hkm').mp hunAll.lt).resolve_right fun h => hne' h.1
  refine ⟨a, n, m, e, f, hlt, hn, hm, ?_, ?_, htid, fun hb => ?_, ?_⟩
  · rw [← hxaddr]
    exact Event.covers_of_expand hxe hxa
  · rw [← hyaddr]
    exact Event.covers_of_expand hyf hya
  · exact hunAll.unordered ((happensBefore_expand hne hne' hn hkn' hm hkm').mpr hb)
  · rintro k z (rfl | rfl) hz
    · rw [htot, hx] at hz
      cases hz
      exact hxaddr
    · rw [htot, hy] at hz
      cases hz
      exact hyaddr

/-- **The event of the file** that an event of the graph comes from: its timestamp is its place. -/
theorem exists_source_of_loaded (hload : loadTrace file = .ok g) {x : Event} (hx : g.totEvents[i]? = some x) :
    ∃ e k, file[x.timestamp]? = some e ∧ e.expand[k]? = some x ∧
      (keptPlaces (Loader.keeps g.sharedVars) (expandTrace file))[i]? =
        some (startOf Event.expand file x.timestamp + k) := by
  obtain ⟨htot, -, -⟩ := loadTrace_eq_ok hload
  rw [htot] at hx
  obtain ⟨p, hp, hx'⟩ := exists_kept hx
  obtain ⟨n, e, k, hn, hk, rfl⟩ := exists_source hx'
  have hts : x.timestamp = n :=
    (Event.timestamp_of_expand (List.mem_of_getElem? hk)).trans (loadable_of_loaded hload hn).timestamp
  rw [hts]
  exact ⟨e, k, hn, hk, hp⟩

/-- **An access of the graph** comes from the access in the file that has its timestamp. -/
theorem source_of_access (hload : loadTrace file = .ok g) {x : Event} (hx : g.totEvents[i]? = some x)
    (hacc : x.isAccessEvent) : ∃ e, file[x.timestamp]? = some e ∧ e.isAccessEvent ∧ e.tid = x.tid := by
  obtain ⟨e, k, he, hk, -⟩ := exists_source_of_loaded hload hx
  have hmem := List.mem_of_getElem? hk
  exact ⟨e, he, (Bool.and_eq_true_iff.mp (Event.covers_of_expand hmem hacc)).1, (Event.tid_of_expand hmem).symm⟩

/-- **Happens-before** in the graph is that of the file. -/
theorem happensBefore_iff_timestamp (hload : loadTrace file = .ok g) (hcall : ∀ e ∈ file, e.opTy ≠ .call) {x y : Event}
    (hx : g.totEvents[i]? = some x) (hy : g.totEvents[j]? = some y) (hne : x.timestamp ≠ y.timestamp) :
    HappensBefore g.totEvents i j ↔ HappensBefore file x.timestamp y.timestamp := by
  have hexp := expand_ne_nil_of_loaded hload hcall
  obtain ⟨e, k, hn, hk, hp⟩ := exists_source_of_loaded hload hx
  obtain ⟨f, k', hm, hk', hq⟩ := exists_source_of_loaded hload hy
  rw [(loadTrace_eq_ok hload).1, happensBefore_filter (dropsAccesses_keeps g.sharedVars) hp hq,
    happensBefore_expand hexp hne hn (List.getElem?_eq_some_iff.mp hk).1 hm (List.getElem?_eq_some_iff.mp hk').1]

/-- Two bytes of one event of the file have its thread and its operation. -/
theorem timestamp_ne (hload : loadTrace file = .ok g) {x y : Event} (hx : g.totEvents[i]? = some x)
    (hy : g.totEvents[j]? = some y) (hne : x.tid ≠ y.tid ∨ x.opTy ≠ y.opTy) : x.timestamp ≠ y.timestamp := by
  intro heq
  obtain ⟨e, k, hn, hk, -⟩ := exists_source_of_loaded hload hx
  obtain ⟨f, k', hm, hk', -⟩ := exists_source_of_loaded hload hy
  rw [heq] at hn
  cases hn.symm.trans hm
  have hxe := List.mem_of_getElem? hk
  have hye := List.mem_of_getElem? hk'
  rw [Event.tid_of_expand hxe, Event.tid_of_expand hye, Event.opTy_of_expand hxe, Event.opTy_of_expand hye] at hne
  exact hne.elim (fun h => h rfl) fun h => h rfl

/-- **The timestamps** of events of different threads, or of different operations, are in the order of the graph. -/
theorem timestamp_lt (hload : loadTrace file = .ok g) (hij : i < j) {x y : Event} (hx : g.totEvents[i]? = some x)
    (hy : g.totEvents[j]? = some y) (hne : x.tid ≠ y.tid ∨ x.opTy ≠ y.opTy) : x.timestamp < y.timestamp := by
  obtain ⟨e, k, hn, hk, hp⟩ := exists_source_of_loaded hload hx
  obtain ⟨f, k', hm, hk', hq⟩ := exists_source_of_loaded hload hy
  have hlt := (source_lt_iff hn (List.getElem?_eq_some_iff.mp hk).1 hm (List.getElem?_eq_some_iff.mp hk').1).mp
    ((kept_lt_iff hp hq).mp hij)
  exact hlt.resolve_right fun h => timestamp_ne hload hx hy hne h.1

/-- The clocks order the accesses at places `i` and `j` of the graph. -/
def DepGraph.ClocksOrder (g : DepGraph) (i j : ℕ) : Prop :=
  ∃ vc vc', storedClockAt g i = some vc ∧ threadClockAt g j = some vc' ∧ vc.le vc'

/-- **The clocks of two accesses** of different threads order them as happens-before does. -/
theorem clocksOrder_iff_happensBefore (hra : analyze g = .ok ra) {x y : Event} (hx : g.totEvents[i]? = some x)
    (hy : g.totEvents[j]? = some y) (hxa : x.isAccessEvent) (hya : y.isAccessEvent) (hne : x.tid ≠ y.tid) :
    g.ClocksOrder i j ↔ HappensBefore g.totEvents i j := by
  unfold DepGraph.ClocksOrder
  rw [storedClockAt_eq hra hx hxa, threadClockAt_eq hra hy hya]
  constructor
  · rintro ⟨vc, vc', hvc, hvc', hle⟩
    cases hvc
    cases hvc'
    rcases Nat.lt_trichotomy i j with hij | rfl | hij
    · exact (stamp_le_iff hra hij hy).mp hle
    · exact absurd (congrArg Event.tid (Option.some.inj (hx.symm.trans hy))) hne
    · exact absurd hle (not_stamp_le hra hij hy hx hne.symm)
  · exact fun hb => ⟨_, _, rfl, rfl, (stamp_le_iff hra hb.lt hy).mpr hb⟩

/-- Accesses that are ordered are not reported. -/
theorem not_mem_pairs (hra : analyze g = .ok ra) (hb : HappensBefore g.totEvents i j) :
    (i, j) ∉ ra.getTotalRaceEventPair := by
  intro hmem
  obtain ⟨a, hun, -⟩ := (mem_pairs hra).mp hmem
  exact hun.unordered hb

theorem not_mem_pairs_swap (hra : analyze g = .ok ra) (hb : HappensBefore g.totEvents i j) :
    (j, i) ∉ ra.getTotalRaceEventPair := by
  intro hmem
  obtain ⟨a, hun, -⟩ := (mem_pairs hra).mp hmem
  exact absurd hun.lt hb.lt.not_gt

/-- **The clocks** order two accesses of different threads as the trace file does. -/
theorem clocksOrder_iff (hload : loadTrace file = .ok g) (hcall : ∀ e ∈ file, e.opTy ≠ .call) (hra : analyze g = .ok ra)
    {x y : Event} (hx : g.totEvents[i]? = some x) (hy : g.totEvents[j]? = some y) (hxa : x.isAccessEvent)
    (hya : y.isAccessEvent) (hne : x.tid ≠ y.tid) :
    g.ClocksOrder i j ↔ HappensBefore file x.timestamp y.timestamp := by
  rw [clocksOrder_iff_happensBefore hra hx hy hxa hya hne,
    happensBefore_iff_timestamp hload hcall hx hy (timestamp_ne hload hx hy (Or.inl hne))]

end File

end Schnauzer
