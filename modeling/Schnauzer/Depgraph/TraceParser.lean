import Schnauzer.Depgraph.LoadTrace
import Schnauzer.Lib.Istream
import Schnauzer.Lib.LittleEndian

/-!
# The bytes of a trace

The loop of `analyze/depgraph/LoadTrace` over the bytes of a file: `TraceParser` reads them with an
`std::ifstream`, and nothing tests whether `Event::loadEvent` has found as many as an event has. What it has not found
is what the memory of the event held before.

## What is proved

* `loop_ok_iff_fits` — which events the loop accepts, for any tid.
* `run_whole` — over whole records the loop is that of `loadTrace`.
* `endsSoundly_iff` — when the loop ends, and adds no event that it has not read: the file has whole records only, or
  one of them is rejected, or the bytes of the last one suffice to reject it.
-/

namespace Schnauzer

open Iostream LittleEndian

/-! ### Events of any tid -/

/-- Two threads access `a`. -/
def AccessedByTwo (evts : List Event) (a : Addr) : Prop :=
  ∃ e ∈ evts, ∃ f ∈ evts, e.isAccessEvent ∧ f.isAccessEvent ∧ e.varAddr = a ∧ f.varAddr = a ∧ e.tid ≠ f.tid

instance (evts : List Event) (a : Addr) : Decidable (AccessedByTwo evts a) :=
  inferInstanceAs (Decidable (∃ e ∈ evts, ∃ f ∈ evts, _))

/-- An event that the loop accepts at position `k`, behind others. -/
structure Fits (before : List Event) (k : ℕ) (evt : Event) : Prop extends Loadable k evt where
  /-- Nothing asks for the thread of an access to a shared address. -/
  thread : evt.isAccessEvent → ¬ evt.tid < UNDEFINED_TID →
    ∀ l < evt.varLen, AccessedByTwo before (evt.expandArrayAccessEvent l).varAddr

variable {ld ld' : Loader} {evt : Event}

/-- Accesses without a thread. -/
theorem addBytes_ok_iff {evts : List Event} (htid : ∀ e ∈ evts, ¬ e.tid < UNDEFINED_TID) :
    (∃ ld', ld.addBytes evts = .ok ld') ↔ ∀ e ∈ evts, e.varAddr ∈ ld.sharedVars := by
  induction evts generalizing ld with
  | nil => simp [Loader.addBytes]
  | cons e evts ih =>
    have hget : e.getThread = .error .getThread := if_neg (htid e List.mem_cons_self)
    obtain ⟨-, -, hshared, -, -⟩ := ld.store_eq e
    rw [List.forall_mem_cons, Loader.addBytes, Loader.addByte_eq, hget]
    by_cases hmem : e.varAddr ∈ ld.sharedVars
    · have := @ih (ld.store e) fun f hf => htid f (List.mem_cons_of_mem _ hf)
      rw [hshared] at this
      simpa [hmem, bind, Except.bind] using this
    · simp [hmem, bind, Except.bind]

/-- **One event.** -/
theorem addEvent_ok_iff_fits {before : List Event} {k : ℕ} (hts : evt.timestamp = k)
    (hshared : ∀ a, a ∈ ld.sharedVars ↔ AccessedByTwo before a) :
    (∃ ld', ld.addEvent evt = .ok ld') ↔ Fits before k evt := by
  by_cases htid : evt.tid < UNDEFINED_TID
  · rw [addEvent_ok_iff htid]
    exact ⟨fun h => ⟨⟨hts, h.1, h.2⟩, fun _ hn => absurd htid hn⟩, fun h => ⟨h.kind, h.length⟩⟩
  · by_cases hacc : evt.isAccessEvent
    · have hs : evt.isSyncOpEvent = false := by
        by_contra hs
        rw [Bool.not_eq_false] at hs
        rw [Event.not_access_of_sync hs] at hacc
        cases hacc
      have hbytes := @addBytes_ok_iff ld ((List.range evt.varLen).map evt.expandArrayAccessEvent) fun e he => by
        obtain ⟨l, -, rfl⟩ := List.mem_map.mp he
        exact htid
      simp only [List.forall_mem_map, List.mem_range, hshared] at hbytes
      simp only [Loader.addEvent, hs, hacc, Bool.false_eq_true, if_false, if_true]
      constructor
      · rintro ⟨ld', h⟩
        obtain ⟨len, hlen, h⟩ := bind_eq_ok.mp h
        obtain ⟨-, hpos, rfl⟩ := Event.getLength_eq_ok.mp hlen
        exact ⟨⟨hts, Or.inr (Or.inl hacc), fun _ => hpos⟩, fun _ _ => hbytes.mp ⟨ld', h⟩⟩
      · intro h
        obtain ⟨ld', hld⟩ := hbytes.mpr (h.thread hacc htid)
        exact ⟨ld', bind_eq_ok.mpr ⟨_, Event.getLength_eq_ok.mpr ⟨hacc, h.length hacc, rfl⟩, hld⟩⟩
    · have hacc' : evt.isAccessEvent = false := Bool.eq_false_of_not_eq_true hacc
      have hkind : (∃ ld', ld.addEvent evt = .ok ld') ↔
          evt.isSyncOpEvent ∨ evt.isThreadOpEvent ∨ evt.isFuncCallEvent := by
        unfold Loader.addEvent
        split_ifs with hs ht hc <;> simp [*]
      rw [hkind]
      constructor
      · intro h
        refine ⟨⟨hts, ?_, fun h => absurd h hacc⟩, fun h => absurd h hacc⟩
        tauto
      · intro h
        have := h.kind
        tauto

/-- The loop over a trace in two parts. -/
theorem loop_append (xs ys : List Event) (k : ℕ) (ld : Loader) :
    Loader.loop (xs ++ ys) k ld = Loader.loop xs k ld >>= Loader.loop ys (k + xs.length) := by
  induction xs generalizing k ld with
  | nil => rfl
  | cons x xs ih =>
    simp only [List.cons_append, Loader.loop]
    split_ifs
    · rfl
    · cases hx : ld.addEvent x with
      | error a => rfl
      | ok ld' =>
        simp only [bind, Except.bind] at ih ⊢
        rw [ih, List.length_cons, Nat.add_right_comm, Nat.add_assoc]

/-- The loop over one event. -/
theorem loop_singleton (evt : Event) (k : ℕ) (ld : Loader) :
    Loader.loop [evt] k ld = if k ≠ evt.timestamp then .error .nextEvent else ld.addEvent evt := by
  simp only [Loader.loop]
  split_ifs
  · rfl
  · cases ld.addEvent evt <;> rfl

/-- **The loop** reaches the end of a file exactly when every event fits. -/
theorem loop_ok_iff_fits {file : List Event} : (∃ ld, Loader.loop file 0 .init = .ok ld) ↔
    ∀ i e, file[i]? = some e → Fits (expandTrace (file.take i)) i e := by
  induction file using List.reverseRecOn with
  | nil => simp [Loader.loop]
  | append_singleton file evt ih =>
    have hfits : ∀ i e, file[i]? = some e → (Fits (expandTrace ((file ++ [evt]).take i)) i e ↔
        Fits (expandTrace (file.take i)) i e) := by
      intro i e he
      obtain ⟨hi, -⟩ := List.getElem?_eq_some_iff.mp he
      rw [List.take_append_of_le_length hi.le]
    have hone : ∀ ld, Loader.loop file 0 .init = .ok ld →
        ((∃ ld', Loader.loop [evt] file.length ld = .ok ld') ↔ Fits (expandTrace file) file.length evt) := by
      intro ld hld
      rw [loop_singleton]
      obtain ⟨htot, hinv⟩ := loop_of_ok hld
      replace htot : ld.totEvents = expandTrace file := htot
      by_cases hts : file.length = evt.timestamp
      · rw [if_neg (not_not.mpr hts)]
        exact addEvent_ok_iff_fits hts.symm fun a => by rw [(hinv .init).shared a, htot]; rfl
      · rw [if_pos hts]
        constructor
        · rintro ⟨ld', h⟩
          cases h
        · intro h
          exact absurd h.timestamp.symm hts
    rw [loop_append, Nat.zero_add]
    constructor
    · rintro ⟨ld', h⟩
      obtain ⟨ld, hld, h⟩ := bind_eq_ok.mp h
      intro i e he
      by_cases hi : i < file.length
      · rw [List.getElem?_append_left hi] at he
        exact (hfits i e he).mpr (ih.mp ⟨ld, hld⟩ i e he)
      · obtain ⟨hlt, -⟩ := List.getElem?_eq_some_iff.mp he
        rw [List.length_append, List.length_singleton] at hlt
        obtain rfl : i = file.length := by omega
        rw [List.getElem?_concat_length] at he
        cases he
        rw [List.take_left]
        exact (hone ld hld).mp ⟨ld', h⟩
    · intro hall
      obtain ⟨ld, hld⟩ := ih.mpr fun i e he => by
        obtain ⟨hi, -⟩ := List.getElem?_eq_some_iff.mp he
        exact (hfits i e he).mp (hall i e ((List.getElem?_append_left hi).trans he))
      have hlast := hall file.length evt List.getElem?_concat_length
      rw [List.take_left] at hlast
      obtain ⟨ld', h⟩ := (hone ld hld).mpr hlast
      exact ⟨ld', bind_eq_ok.mpr ⟨ld, hld, h⟩⟩

/-! ### The parser -/

/-- `sizeof(Event)`. -/
def Event.size : ℕ := 40

/-- A little-endian field of `w` bytes. -/
def field (mem : ℕ → UInt8) (off w : ℕ) : ℕ := Nat.ofDigits 256 ((List.range w).map fun i => (mem (off + i)).toNat)

/-- The enumerators. -/
def OpTy.enumerators : List OpTy :=
  [.create, .join, .ld, .st, .trylock, .lock, .unlock, .wait, .awake, .signal, .broadcast, .call]

/-- The type in an `int8_t`. -/
def OpTy.ofByte (b : UInt8) : OpTy :=
  let code : ℤ := b.toInt8.toInt
  (OpTy.enumerators.find? fun ty => ty.code = code).getD (.other code)

/-- The event in a piece of memory; the last five bytes are padding. -/
def Event.ofMemory (mem : ℕ → UInt8) : Event :=
  ⟨field mem 0 8, field mem 8 8, field mem 16 8, field mem 24 8, .ofByte (mem 32), (mem 33).toNat, (mem 34).toNat⟩

/-- A file; its size is a `streamoff`. -/
structure TraceFile where
  bytes : List UInt8
  size_lt : bytes.length < 2 ^ 63

/-- `TraceParser`. -/
structure TraceParser where
  /-- `fin_`. -/
  fin : Istream UInt8
  /-- `file_sz_`. -/
  fileSz : ℤ
  /-- `assert_cnt_`. -/
  assertCnt : ℕ

namespace TraceParser

/-- The constructor. -/
def init (file : TraceFile) : TraceParser :=
  let fin := (Istream.ofContent file.bytes).seekgEnd
  let (fileSz, fin) := fin.tellg
  ⟨fin.seekg 0, fileSz, 0⟩

/-- `isEOF`. -/
def isEOF (p : TraceParser) : Bool × TraceParser :=
  let (pos, fin) := p.fin.tellg
  (pos = p.fileSz, { p with fin := fin })

/-- `Event::loadEvent`; `junk` is what the memory of the event holds before. -/
def loadEvent (junk : ℕ → UInt8) (fin : Istream UInt8) : Event × Istream UInt8 :=
  let (got, fin) := fin.read Event.size
  (.ofMemory fun i => got.getD i (junk i), fin)

/-- `nextEvent`; `timestamp_t` has 64 bits. -/
def nextEvent (junk : ℕ → UInt8) (p : TraceParser) : Except Abort Event × TraceParser :=
  let (evt, fin) := loadEvent junk p.fin
  if p.assertCnt ≠ evt.timestamp then (.error .nextEvent, { p with fin := fin })
  else (.ok evt, { p with fin := fin, assertCnt := (p.assertCnt + 1) % UInt64.size })

end TraceParser

namespace Loader

/-- `addBytes`, with what is in the graph when an `assert` fails: the event is there already. -/
def putBytes (ld : Loader) : List Event → Loader × Option Abort
  | [] => (ld, none)
  | evt :: evts =>
    match ld.addByte evt with
    | .ok ld => ld.putBytes evts
    | .error a => (ld.store evt, some a)

/-- `addEvent`, with what is in the graph when an `assert` fails. -/
def putEvent (ld : Loader) (evt : Event) : Loader × Option Abort :=
  if evt.isAccessEvent then
    match evt.getLength with
    | .error a => (ld, some a)
    | .ok len => ld.putBytes ((List.range len).map evt.expandArrayAccessEvent)
  else
    match ld.addEvent evt with
    | .ok ld => (ld, none)
    | .error a => (ld, some a)

end Loader

/-- The loop of `DepGraph::loadTrace`. -/
structure LoadRun where
  parser : TraceParser
  /-- The graph, and the local variables. -/
  loader : Loader
  /-- The `assert` that has failed. -/
  aborted : Option Abort

namespace LoadRun

/-- In front of the loop. -/
def init (file : TraceFile) : LoadRun := ⟨.init file, .init, none⟩

/-- The loop has ended, or the file is rejected. -/
def Ended (s : LoadRun) : Prop := s.aborted.isSome ∨ s.parser.isEOF.1

instance (s : LoadRun) : Decidable s.Ended := inferInstanceAs (Decidable (_ ∨ _))

/-- One event. -/
def step (junk : ℕ → UInt8) (s : LoadRun) : LoadRun :=
  if s.Ended then s
  else
    match s.parser.isEOF.2.nextEvent junk with
    | (.error a, parser) => ⟨parser, s.loader, some a⟩
    | (.ok evt, parser) => ⟨parser, (s.loader.putEvent evt).1, (s.loader.putEvent evt).2⟩

/-- The loop after `n` events; `junk n` is what the memory of the next one holds. -/
def run (file : TraceFile) (junk : ℕ → ℕ → UInt8) : ℕ → LoadRun
  | 0 => init file
  | n + 1 => (run file junk n).step (junk n)

end LoadRun

/-- What is asked of the loop, whatever the memory holds. -/
structure EndsSoundly (file : TraceFile) : Prop where
  /-- It ends. -/
  ends : ∀ junk, ∃ n ≤ file.bytes.length / Event.size + 1, (LoadRun.run file junk n).Ended
  /-- An event is added only when the file has had all of its bytes. -/
  whole : ∀ junk n, (LoadRun.run file junk (n + 1)).loader.totEvents ≠ (LoadRun.run file junk n).loader.totEvents →
    (LoadRun.run file junk (n + 1)).parser.fin.gcount = Event.size

namespace TraceFile

/-- How many whole records the file has. -/
def nrRecord (file : TraceFile) : ℕ := file.bytes.length / Event.size

/-- The events in its whole records. -/
def events (file : TraceFile) : List Event :=
  (List.range file.nrRecord).map fun k => .ofMemory fun i => file.bytes.getD (Event.size * k + i) 0

/-- What is behind them. -/
def tail (file : TraceFile) : List UInt8 := file.bytes.drop (Event.size * file.nrRecord)

/-- An event in a whole record does not fit. -/
def Rejected (file : TraceFile) : Prop :=
  ∃ i e, file.events[i]? = some e ∧ ¬ Fits (expandTrace (file.events.take i)) i e

/-- The bytes of the last, incomplete record contradict none of the tests on it. -/
structure TailFits (file : TraceFile) : Prop where
  timestamp : ∀ i < 8, ∀ b, file.tail[8 + i]? = some b → b.toNat = file.nrRecord / 256 ^ i % 256
  kind : ∀ b, file.tail[32]? = some b → OpTy.ofByte b ∈ OpTy.enumerators
  length : ∀ b, file.tail[32]? = some b → OpTy.ofByte b = .ld ∨ OpTy.ofByte b = .st →
    0 < field (fun i => file.tail.getD i 0) 24 8

end TraceFile

/-! ### What an event holds -/

theorem field_congr {m m' : ℕ → UInt8} {off w : ℕ} (h : ∀ i < w, m (off + i) = m' (off + i)) :
    field m off w = field m' off w := by
  unfold field
  congr 1
  exact List.map_congr_left fun i hi => by rw [h i (List.mem_range.mp hi)]

/-- The padding does not count. -/
theorem Event.ofMemory_congr {m m' : ℕ → UInt8} (h : ∀ i < Event.size, m i = m' i) :
    Event.ofMemory m = Event.ofMemory m' := by
  have hfield : ∀ off, off + 8 ≤ Event.size → field m off 8 = field m' off 8 := fun off hoff =>
    field_congr fun i hi => h _ (by omega)
  simp only [ofMemory, hfield 0 (by decide), hfield 8 (by decide), hfield 16 (by decide), hfield 24 (by decide),
    h 32 (by decide), h 33 (by decide), h 34 (by decide)]

/-- The branches of the loop, and the last one. -/
theorem kind_iff (evt : Event) :
    (evt.isSyncOpEvent ∨ evt.isAccessEvent ∨ evt.isThreadOpEvent ∨ evt.isFuncCallEvent) ↔
      evt.opTy ∈ OpTy.enumerators := by
  cases h : evt.opTy <;> simp [Event.isSyncOpEvent, Event.isAccessEvent, Event.isThreadOpEvent,
    Event.isFuncCallEvent, OpTy.enumerators, h]

theorem isAccessEvent_iff (evt : Event) : evt.isAccessEvent ↔ evt.opTy = .ld ∨ evt.opTy = .st := by
  simp [Event.isAccessEvent]

/-! ### The graph when an `assert` fails -/

theorem putBytes_eq (evts : List Event) (ld : Loader) : ld.addBytes evts =
    match (ld.putBytes evts).2 with
    | none => .ok (ld.putBytes evts).1
    | some a => .error a := by
  induction evts generalizing ld with
  | nil => rfl
  | cons evt evts ih =>
    rw [Loader.addBytes, Loader.putBytes]
    cases ld.addByte evt with
    | error a => rfl
    | ok ld' => exact ih ld'

theorem putEvent_eq (ld : Loader) (evt : Event) : ld.addEvent evt =
    match (ld.putEvent evt).2 with
    | none => .ok (ld.putEvent evt).1
    | some a => .error a := by
  unfold Loader.putEvent
  by_cases hacc : evt.isAccessEvent
  · have hs : evt.isSyncOpEvent = false := by
      by_contra hs
      rw [Bool.not_eq_false] at hs
      rw [Event.not_access_of_sync hs] at hacc
      cases hacc
    rw [if_pos hacc]
    simp only [Loader.addEvent, hs, hacc, Bool.false_eq_true, if_false, if_true]
    cases evt.getLength with
    | error a => rfl
    | ok len => exact putBytes_eq _ ld
  · rw [if_neg hacc]
    cases ld.addEvent evt with
    | error a => rfl
    | ok ld' => rfl

theorem putEvent_of_ok (h : ld.addEvent evt = .ok ld') : ld.putEvent evt = (ld', none) := by
  rw [putEvent_eq] at h
  split at h
  next heq =>
    cases h
    exact Prod.ext rfl heq
  next => cases h

theorem putEvent_of_error {a : Abort} (h : ld.addEvent evt = .error a) : (ld.putEvent evt).2 = some a := by
  rw [putEvent_eq] at h
  split at h
  next => cases h
  next heq =>
    cases h
    exact heq

/-- The graph only grows. -/
theorem length_putBytes (evts : List Event) (ld : Loader) :
    ld.totEvents.length ≤ (ld.putBytes evts).1.totEvents.length := by
  induction evts generalizing ld with
  | nil => exact le_rfl
  | cons evt evts ih =>
    rw [Loader.putBytes]
    cases h : ld.addByte evt with
    | error a => simp [(ld.store_eq evt).1]
    | ok ld' =>
      refine le_trans ?_ (ih ld')
      simp [(addedByte_of_ok h).totEvents]

/-- An event that passes the first tests is added, or it stops nothing. -/
theorem putEvent_of_loadable {k : ℕ} (h : Loadable k evt) :
    (ld.putEvent evt).1.totEvents ≠ ld.totEvents ∨ (ld.putEvent evt).2 = none := by
  by_cases hacc : evt.isAccessEvent
  · left
    have hlen : evt.getLength = .ok evt.varLen := Event.getLength_eq_ok.mpr ⟨hacc, h.length hacc, rfl⟩
    obtain ⟨n, hn⟩ := Nat.exists_eq_succ_of_ne_zero (h.length hacc).ne'
    intro heq
    have hlt : ld.totEvents.length < (ld.putEvent evt).1.totEvents.length := by
      rw [Loader.putEvent, if_pos hacc, hlen, hn]
      dsimp only
      rw [Nat.succ_eq_add_one, List.range_succ_eq_map, List.map_cons, Loader.putBytes]
      cases hb : ld.addByte (evt.expandArrayAccessEvent 0) with
      | error a => simp [(ld.store_eq _).1]
      | ok ld' =>
        refine lt_of_lt_of_le ?_ (length_putBytes _ ld')
        simp [(addedByte_of_ok hb).totEvents]
    rw [heq] at hlt
    exact lt_irrefl _ hlt
  · right
    have hok : ∃ ld', ld.addEvent evt = .ok ld' := by
      have hacc' : evt.isAccessEvent = false := Bool.eq_false_of_not_eq_true hacc
      have hkind := h.kind
      simp only [hacc', Bool.false_eq_true, false_or] at hkind
      unfold Loader.addEvent
      split_ifs with hs ht hc
      · exact ⟨_, rfl⟩
      · exact ⟨_, rfl⟩
      · exact ⟨_, rfl⟩
      · exact absurd hkind (by simp [hs, ht, hc])
    obtain ⟨ld', hok⟩ := hok
    rw [putEvent_of_ok hok]

/-- An event that is rejected before it is added. -/
theorem putEvent_of_not (h : evt.opTy ∉ OpTy.enumerators ∨ evt.isAccessEvent ∧ evt.varLen = 0) :
    (ld.putEvent evt).1 = ld ∧ (ld.putEvent evt).2.isSome := by
  rcases h with hop | ⟨hacc, hlen⟩
  · have hno := mt (kind_iff evt).mp hop
    push Not at hno
    obtain ⟨hs, ha, ht, hc⟩ := hno
    simp [Loader.putEvent, Loader.addEvent, hs, ha, ht, hc]
  · simp [Loader.putEvent, Event.getLength, hacc, hlen]

/-! ### Whole records -/

namespace LoadRun

variable {file : TraceFile} {junk : ℕ → ℕ → UInt8} {s : LoadRun} {n : ℕ}

theorem step_of_ended {junk : ℕ → UInt8} (h : s.Ended) : s.step junk = s := if_pos h

theorem run_of_ended (h : (run file junk n).Ended) {m : ℕ} (hm : n ≤ m) : run file junk m = run file junk n := by
  induction m, hm using Nat.le_induction with
  | base => rfl
  | succ m _ ih => rw [run, ih, step_of_ended h]

/-- The loop is in front of record `n`. -/
structure AtRecord (file : TraceFile) (n : ℕ) (s : LoadRun) : Prop where
  content : s.parser.fin.content = file.bytes
  pos : s.parser.fin.pos = Event.size * n
  good : s.parser.fin.good
  fileSz : s.parser.fileSz = file.bytes.length
  assertCnt : s.parser.assertCnt = n
  aborted : s.aborted = none
  loop : Loader.loop (file.events.take n) 0 .init = .ok s.loader

theorem atRecord_init (file : TraceFile) : AtRecord file 0 (init file) := by
  refine ⟨rfl, rfl, rfl, ?_, rfl, rfl, rfl⟩
  simp [init, TraceParser.init, Istream.seekgEnd, Istream.ofContent, Istream.clearEof, Istream.tellg, Istream.sentry,
    Istream.good]

theorem AtRecord.isEOF (h : AtRecord file n s) :
    s.parser.isEOF = (decide (Event.size * n = file.bytes.length), s.parser) := by
  simp only [TraceParser.isEOF, Istream.tellg_of_good h.good]
  exact Prod.ext (by simp only [h.pos, h.fileSz, Nat.cast_inj]) rfl

theorem AtRecord.ended_iff (h : AtRecord file n s) : s.Ended ↔ Event.size * n = file.bytes.length := by
  simp [Ended, h.aborted, h.isEOF]

theorem size_mul_nrRecord_le (file : TraceFile) : Event.size * file.nrRecord ≤ file.bytes.length :=
  Nat.mul_div_le _ _

theorem getElem?_events (hn : n < file.nrRecord) :
    file.events[n]? = some (.ofMemory fun i => file.bytes.getD (Event.size * n + i) 0) := by
  simp [TraceFile.events, List.getElem?_map, List.getElem?_range hn]

/-- One event, whatever has been read of it. -/
theorem AtRecord.step_eq (h : AtRecord file n s) (hne : ¬ s.Ended) {junk : ℕ → UInt8} {evt : Event}
    {fin : Istream UInt8} (hload : TraceParser.loadEvent junk s.parser.fin = (evt, fin)) :
    s.step junk = if n ≠ evt.timestamp then ⟨{ s.parser with fin := fin }, s.loader, some .nextEvent⟩
      else ⟨{ s.parser with fin := fin, assertCnt := (n + 1) % UInt64.size }, (s.loader.putEvent evt).1,
        (s.loader.putEvent evt).2⟩ := by
  rw [LoadRun.step, if_neg hne, h.isEOF]
  simp only [TraceParser.nextEvent, hload, h.assertCnt]
  split_ifs <;> rfl

theorem size_mul_succ_le (hn : n < file.nrRecord) : Event.size * n + Event.size ≤ file.bytes.length :=
  (Nat.mul_le_mul_left _ hn).trans (size_mul_nrRecord_le file)

/-- What is read at a whole record is its event. -/
theorem AtRecord.loadEvent (h : AtRecord file n s) (hn : n < file.nrRecord) (junk : ℕ → UInt8) :
    ∃ evt, file.events[n]? = some evt ∧ TraceParser.loadEvent junk s.parser.fin =
      (evt, { s.parser.fin with pos := s.parser.fin.pos + Event.size, gcount := Event.size }) := by
  have hsize := size_mul_succ_le hn
  refine ⟨_, getElem?_events hn, ?_⟩
  have hread := Istream.read_of_le (n := Event.size) h.good (by rw [h.content, h.pos]; exact hsize)
  simp only [TraceParser.loadEvent, hread, h.content, h.pos]
  refine congrArg (Prod.mk · _) (Event.ofMemory_congr fun i hi => ?_)
  have hlt : Event.size * n + i < file.bytes.length := by omega
  simp [List.getD_eq_getElem?_getD, hi, List.getElem?_drop, List.getElem?_eq_getElem hlt]

/-- The loop over the events up to this one. -/
theorem AtRecord.loop_succ (h : AtRecord file n s) (hn : n < file.nrRecord) {evt : Event}
    (hget : file.events[n]? = some evt) : Loader.loop (file.events.take (n + 1)) 0 .init =
      if n ≠ evt.timestamp then .error .nextEvent else s.loader.addEvent evt := by
  have htake : file.events.take (n + 1) = file.events.take n ++ [evt] := by
    rw [List.take_add_one, hget]
    rfl
  have hlen : (file.events.take n).length = n := by
    rw [List.length_take, TraceFile.events, List.length_map, List.length_range]
    omega
  rw [htake, loop_append, h.loop, Nat.zero_add, hlen]
  exact loop_singleton evt n s.loader

/-- Events that are rejected are rejected whatever follows. -/
theorem not_loop_of_take {k : ℕ} {ab : Abort} (h : Loader.loop (file.events.take k) 0 .init = .error ab) :
    ¬ ∃ ld, Loader.loop file.events 0 .init = .ok ld := by
  rintro ⟨ld, hld⟩
  rw [← List.take_append_drop k file.events, loop_append, h] at hld
  cases hld

/-- **One record.** -/
theorem AtRecord.step (h : AtRecord file n s) (hn : n < file.nrRecord) (junk : ℕ → UInt8) :
    (s.step junk).parser.fin.gcount = Event.size ∧
      (AtRecord file (n + 1) (s.step junk) ∨
        (s.step junk).aborted.isSome ∧ ¬ ∃ ld, Loader.loop file.events 0 .init = .ok ld) := by
  have hsize := size_mul_succ_le hn
  have hne : ¬ s.Ended := by
    rw [h.ended_iff]
    have : 0 < Event.size := by decide
    omega
  obtain ⟨evt, hget, hload⟩ := h.loadEvent hn junk
  have hloop := h.loop_succ hn hget
  rw [h.step_eq hne hload]
  split_ifs at hloop ⊢ with hts
  · exact ⟨rfl, Or.inr ⟨rfl, not_loop_of_take hloop⟩⟩
  · refine ⟨rfl, ?_⟩
    cases hadd : s.loader.addEvent evt with
    | error a =>
      rw [putEvent_of_error hadd]
      exact Or.inr ⟨rfl, not_loop_of_take (hloop.trans hadd)⟩
    | ok ld' =>
      have hlt : n + 1 < UInt64.size := by
        have := file.size_lt
        simp only [Event.size, UInt64.size] at hsize ⊢
        omega
      rw [putEvent_of_ok hadd]
      refine Or.inl ⟨h.content, ?_, h.good, h.fileSz, Nat.mod_eq_of_lt hlt, rfl, hloop.trans hadd⟩
      simp only [h.pos, Nat.mul_succ]

/-- **The records** of a file. -/
theorem atRecord_run (junk : ℕ → ℕ → UInt8) (hn : n ≤ file.nrRecord) : AtRecord file n (run file junk n) ∨
    (run file junk n).aborted.isSome ∧ ¬ ∃ ld, Loader.loop file.events 0 .init = .ok ld := by
  induction n with
  | zero => exact Or.inl (atRecord_init file)
  | succ n ih =>
    rcases ih (by omega) with h | h
    · exact (h.step hn (junk n)).2
    · rw [run, step_of_ended (Or.inl h.1)]
      exact Or.inr h

/-- Up to the last whole record an event is added only when it has been read. -/
theorem gcount_of_lt (junk : ℕ → ℕ → UInt8) (hn : n < file.nrRecord)
    (hne : (run file junk (n + 1)).loader.totEvents ≠ (run file junk n).loader.totEvents) :
    (run file junk (n + 1)).parser.fin.gcount = Event.size := by
  rcases atRecord_run junk hn.le with h | h
  · exact (h.step hn (junk n)).1
  · rw [run, step_of_ended (Or.inl h.1)] at hne
    exact absurd rfl hne

/-! ### The last record -/

/-- The event that is read from an incomplete record. -/
def lastEvent (file : TraceFile) (junk : ℕ → UInt8) : Event := .ofMemory fun i => file.tail.getD i (junk i)

theorem lastEvent_timestamp (file : TraceFile) (junk : ℕ → UInt8) : (lastEvent file junk).timestamp =
    Nat.ofDigits 256 ((List.range 8).map fun i => (file.tail.getD (8 + i) (junk (8 + i))).toNat) := rfl

theorem lastEvent_opTy (file : TraceFile) (junk : ℕ → UInt8) :
    (lastEvent file junk).opTy = .ofByte (file.tail.getD 32 (junk 32)) := rfl

theorem lastEvent_varLen (file : TraceFile) (junk : ℕ → UInt8) :
    (lastEvent file junk).varLen = field (fun i => file.tail.getD i (junk i)) 24 8 := rfl

theorem nrRecord_lt (file : TraceFile) : file.nrRecord < 256 ^ 8 := by
  have := file.size_lt
  have := size_mul_nrRecord_le file
  simp only [Event.size] at this
  omega

/-- **The last step.** -/
theorem AtRecord.step_tail (h : AtRecord file file.nrRecord s) (hrest : ¬ Event.size ∣ file.bytes.length)
    (junk : ℕ → UInt8) : ∃ fin, fin.failbit = true ∧ fin.gcount < Event.size ∧
      s.step junk = if file.nrRecord ≠ (lastEvent file junk).timestamp then
          ⟨{ s.parser with fin := fin }, s.loader, some .nextEvent⟩
        else ⟨{ s.parser with fin := fin, assertCnt := (file.nrRecord + 1) % UInt64.size },
          (s.loader.putEvent (lastEvent file junk)).1, (s.loader.putEvent (lastEvent file junk)).2⟩ := by
  have hne : ¬ s.Ended := by
    rw [h.ended_iff]
    intro heq
    exact hrest ⟨_, heq.symm⟩
  have hlt : file.bytes.length < Event.size * file.nrRecord + Event.size :=
    Nat.lt_mul_div_succ _ (by decide)
  have hread := Istream.read_short (n := Event.size) h.good
    (by rw [h.content, h.pos]; exact size_mul_nrRecord_le file) (by rw [h.content, h.pos]; exact hlt)
  refine ⟨(s.parser.fin.read Event.size).2, ?_, ?_, h.step_eq hne ?_⟩
  · rw [hread]
  · rw [hread, h.content, h.pos]
    exact Nat.sub_lt_left_of_lt_add (size_mul_nrRecord_le file) hlt
  · simp only [TraceParser.loadEvent, hread, h.content, h.pos]
    rfl

/-- The bytes that are there decide the fields that they belong to. -/
theorem tail_getD {i : ℕ} {b : UInt8} (h : file.tail[i]? = some b) (d : UInt8) : file.tail.getD i d = b := by
  simp [List.getD_eq_getElem?_getD, h]

/-- The length is there when the type is. -/
theorem field_tail_length {b : UInt8} (h : file.tail[32]? = some b) (junk : ℕ → UInt8) :
    field (fun i => file.tail.getD i (junk i)) 24 8 = field (fun i => file.tail.getD i 0) 24 8 := by
  obtain ⟨hlt, -⟩ := List.getElem?_eq_some_iff.mp h
  apply field_congr
  intro i hi
  have hi' : 24 + i < file.tail.length := by omega
  simp [List.getD_eq_getElem?_getD, List.getElem?_eq_getElem hi']

/-- A record that is rejected, whatever its missing bytes are. -/
theorem AtRecord.rejects (h : AtRecord file file.nrRecord s) (hrest : ¬ Event.size ∣ file.bytes.length)
    (hfits : ¬ file.TailFits) (junk : ℕ → UInt8) :
    (s.step junk).aborted.isSome ∧ (s.step junk).loader = s.loader := by
  obtain ⟨fin, -, -, hstep⟩ := h.step_tail hrest junk
  rw [hstep]
  split_ifs with hts
  · exact ⟨rfl, rfl⟩
  · have hnot : (lastEvent file junk).opTy ∉ OpTy.enumerators ∨
        (lastEvent file junk).isAccessEvent ∧ (lastEvent file junk).varLen = 0 := by
      by_contra hok
      push Not at hok
      obtain ⟨hop, hlen⟩ := hok
      refine hfits ⟨fun i hi b hb => ?_, fun b hb => ?_, fun b hb hacc => ?_⟩
      · have hdigit := digit_ofDigits (b := 256) (w := 8)
          (fun i => (file.tail.getD (8 + i) (junk (8 + i))).toNat) (fun i => UInt8.toNat_lt _) hi
        rw [← tail_getD hb (junk (8 + i)), ← hdigit, ← lastEvent_timestamp, ← not_not.mp hts]
      · rwa [lastEvent_opTy, tail_getD hb] at hop
      · rw [isAccessEvent_iff, lastEvent_opTy, tail_getD hb, lastEvent_varLen, field_tail_length hb] at hlen
        exact Nat.pos_of_ne_zero (hlen hacc)
    exact (putEvent_of_not hnot).symm

/-- Missing bytes that make the record an event of the trace. -/
def fill (k : ℕ) (i : ℕ) : UInt8 :=
  if 8 ≤ i ∧ i < 16 then UInt8.ofNat (k / 256 ^ (i - 8)) else if i = 32 then 23 else 0

theorem loadable_fill (hfits : file.TailFits) : Loadable file.nrRecord (lastEvent file (fill file.nrRecord)) := by
  have hbyte : ∀ i < 8, (file.tail.getD (8 + i) (fill file.nrRecord (8 + i))).toNat =
      file.nrRecord / 256 ^ i % 256 := by
    intro i hi
    cases hb : file.tail[8 + i]? with
    | some b =>
      rw [tail_getD hb]
      exact hfits.timestamp i hi b hb
    | none =>
      have hin : 8 ≤ 8 + i ∧ 8 + i < 16 := by omega
      simp [List.getD_eq_getElem?_getD, hb, fill, hin]
  have hop : (∃ b, file.tail[32]? = some b ∧ (lastEvent file (fill file.nrRecord)).opTy = .ofByte b) ∨
      (lastEvent file (fill file.nrRecord)).opTy = .call := by
    rw [lastEvent_opTy]
    cases hb : file.tail[32]? with
    | some b => exact Or.inl ⟨b, rfl, by rw [tail_getD hb]⟩
    | none =>
      apply Or.inr
      rw [List.getD_eq_getElem?_getD, hb, show fill file.nrRecord 32 = 23 by simp [fill]]
      decide
  refine ⟨?_, (kind_iff _).mpr ?_, fun hacc => ?_⟩
  · calc (lastEvent file (fill file.nrRecord)).timestamp
        = Nat.ofDigits 256 ((List.range 8).map fun i => file.nrRecord / 256 ^ i % 256) := by
          rw [lastEvent_timestamp, List.map_congr_left fun i hi => hbyte i (List.mem_range.mp hi)]
      _ = file.nrRecord % 256 ^ 8 := ofDigits_digit 256 file.nrRecord 8
      _ = file.nrRecord := Nat.mod_eq_of_lt (nrRecord_lt file)
  · rcases hop with ⟨b, hb, heq⟩ | heq
    · exact heq ▸ hfits.kind b hb
    · rw [heq]
      decide
  · rw [isAccessEvent_iff] at hacc
    rcases hop with ⟨b, hb, heq⟩ | heq
    · rw [lastEvent_varLen, field_tail_length hb]
      exact hfits.length b hb (heq ▸ hacc)
    · rw [heq] at hacc
      simp at hacc

/-- **A record that fits**: it is added, or the loop goes on behind the end of the file. -/
theorem AtRecord.escapes (h : AtRecord file file.nrRecord s) (hrest : ¬ Event.size ∣ file.bytes.length)
    (hfits : file.TailFits) :
    (s.step (fill file.nrRecord)).parser.fin.gcount < Event.size ∧
      ((s.step (fill file.nrRecord)).loader.totEvents ≠ s.loader.totEvents ∨
        ¬ (s.step (fill file.nrRecord)).Ended) := by
  obtain ⟨fin, hfail, hcount, hstep⟩ := h.step_tail hrest (fill file.nrRecord)
  have hev := loadable_fill hfits
  rw [hstep, if_neg (not_not.mpr hev.timestamp.symm)]
  refine ⟨hcount, Or.imp_right (fun hnone => ?_) (putEvent_of_loadable hev)⟩
  have hpos : ¬ (-1 : ℤ) = file.bytes.length := by omega
  simp [Ended, hnone, TraceParser.isEOF, Istream.tellg_of_fail hfail, h.fileSz, hpos]

end LoadRun

/-! ### The contract -/

namespace TraceFile

open LoadRun

variable {file : TraceFile}

theorem rejected_iff : file.Rejected ↔ ¬ ∃ ld, Loader.loop file.events 0 .init = .ok ld := by
  rw [loop_ok_iff_fits]
  push Not
  rfl

/-- Where the loop stops in front of the incomplete record, or at it. -/
theorem endsSoundly_of_ended {n : ℕ} (hn : n ≤ file.nrRecord + 1) (h : ∀ junk, (run file junk n).Ended)
    (hlast : ∀ junk, file.nrRecord < n →
      (run file junk n).loader.totEvents = (run file junk file.nrRecord).loader.totEvents) : EndsSoundly file where
  ends := fun junk => ⟨n, hn, h junk⟩
  whole := by
    intro junk m hne
    by_cases hm : m < file.nrRecord
    · exact gcount_of_lt junk hm hne
    · refine absurd ?_ hne
      by_cases hmn : n ≤ m
      · rw [run_of_ended (h junk) hmn, run_of_ended (h junk) (Nat.le_succ_of_le hmn)]
      · obtain rfl : m = file.nrRecord := by omega
        obtain rfl : n = file.nrRecord + 1 := by omega
        exact hlast junk (Nat.lt_succ_self _)

/-- A file of whole records, or one that is rejected before its end. -/
theorem endsSoundly_of_whole (h : Event.size ∣ file.bytes.length ∨ file.Rejected) : EndsSoundly file := by
  refine endsSoundly_of_ended (Nat.le_succ _) (fun junk => ?_) fun _ hlt => absurd hlt (lt_irrefl _)
  rcases atRecord_run junk le_rfl with hrec | ⟨hab, -⟩
  · rcases h with hdvd | hrej
    · exact hrec.ended_iff.mpr (Nat.mul_div_cancel' hdvd)
    · have hloop := hrec.loop
      rw [List.take_of_length_le (by simp [events])] at hloop
      exact absurd ⟨_, hloop⟩ (rejected_iff.mp hrej)
  · exact Or.inl hab

/-- The last record is rejected. -/
theorem endsSoundly_of_not_tailFits (hrest : ¬ Event.size ∣ file.bytes.length) (h : ¬ file.TailFits) :
    EndsSoundly file := by
  have hstep : ∀ junk, (run file junk (file.nrRecord + 1)).Ended ∧
      (run file junk (file.nrRecord + 1)).loader.totEvents = (run file junk file.nrRecord).loader.totEvents := by
    intro junk
    rcases atRecord_run junk le_rfl with hrec | ⟨hab, -⟩
    · obtain ⟨hab, hld⟩ := hrec.rejects hrest h (junk file.nrRecord)
      exact ⟨Or.inl hab, by rw [run, hld]⟩
    · have hend : (run file junk file.nrRecord).Ended := Or.inl hab
      rw [run_of_ended hend (Nat.le_succ _)]
      exact ⟨hend, rfl⟩
  exact endsSoundly_of_ended le_rfl (fun junk => (hstep junk).1) fun junk _ => (hstep junk).2

/-- An incomplete record that fits, behind records that are accepted. -/
theorem not_endsSoundly (hrest : ¬ Event.size ∣ file.bytes.length) (hrej : ¬ file.Rejected) (hfits : file.TailFits) :
    ¬ EndsSoundly file := by
  rintro ⟨hends, hwhole⟩
  set junk : ℕ → ℕ → UInt8 := fun _ => fill file.nrRecord with hjunk
  have hrec : ∀ n ≤ file.nrRecord, AtRecord file n (run file junk n) := fun n hn =>
    (atRecord_run junk hn).resolve_right fun h => hrej (rejected_iff.mpr h.2)
  obtain ⟨hcount, hescape⟩ := (hrec _ le_rfl).escapes hrest hfits
  rcases hescape with hadded | hgoes
  · exact hcount.ne (hwhole junk file.nrRecord hadded)
  · obtain ⟨n, hn, hend⟩ := hends junk
    by_cases hlt : n ≤ file.nrRecord
    · exact hrest ⟨n, ((hrec n hlt).ended_iff.mp hend).symm⟩
    · obtain rfl : n = file.nrRecord + 1 := le_antisymm hn (by omega)
      exact hgoes hend

/-- **Truncated traces**: the loop ends, and adds only events that it has read, if and only if the file has no
incomplete record, or one of its events is rejected, or what there is of the last one suffices to reject it. -/
theorem endsSoundly_iff (file : TraceFile) :
    EndsSoundly file ↔ Event.size ∣ file.bytes.length ∨ file.Rejected ∨ ¬ file.TailFits := by
  by_cases hrest : Event.size ∣ file.bytes.length
  · exact iff_of_true (endsSoundly_of_whole (Or.inl hrest)) (Or.inl hrest)
  by_cases hrej : file.Rejected
  · exact iff_of_true (endsSoundly_of_whole (Or.inr hrej)) (Or.inr (Or.inl hrej))
  by_cases hfits : file.TailFits
  · exact iff_of_false (not_endsSoundly hrest hrej hfits) (by simp [hrest, hrej, hfits])
  · exact iff_of_true (endsSoundly_of_not_tailFits hrest hfits) (Or.inr (Or.inr hfits))

/-- One byte. -/
def oneByte : TraceFile := ⟨[7], by decide⟩

/-- The loop reads behind the end of a file of one byte. -/
theorem oneByte_not_endsSoundly : ¬ EndsSoundly oneByte := by
  refine not_endsSoundly (by decide) ?_ ⟨fun i hi b hb => ?_, fun b hb => ?_, fun b hb => ?_⟩
  · rintro ⟨i, e, he, -⟩
    cases he
  all_goals
    simp [tail, oneByte, nrRecord, Event.size] at hb

/-- **A file of whole records**: the loop ends with the graph of its events, or rejects it as they are rejected. -/
theorem run_whole (hdvd : Event.size ∣ file.bytes.length) (junk : ℕ → ℕ → UInt8) :
    (run file junk file.nrRecord).Ended ∧
      ((run file junk file.nrRecord).aborted = none ∧
          loadTrace file.events = .ok (run file junk file.nrRecord).loader.finish ∨
        (run file junk file.nrRecord).aborted.isSome ∧ ∀ g, loadTrace file.events ≠ .ok g) := by
  have hrun : AtRecord file file.nrRecord (run file junk file.nrRecord) ∨ _ := atRecord_run junk le_rfl
  obtain hrec | ⟨hab, hno⟩ := hrun
  · refine ⟨hrec.ended_iff.mpr (Nat.mul_div_cancel' hdvd), Or.inl ⟨hrec.aborted, ?_⟩⟩
    have hloop := hrec.loop
    rw [List.take_of_length_le (by simp [events])] at hloop
    exact bind_eq_ok.mpr ⟨_, hloop, rfl⟩
  · refine ⟨Or.inl hab, Or.inr ⟨hab, fun g hg => ?_⟩⟩
    obtain ⟨ld, hld, -⟩ := bind_eq_ok.mp hg
    exact hno ⟨ld, hld⟩

end TraceFile

end Schnauzer
