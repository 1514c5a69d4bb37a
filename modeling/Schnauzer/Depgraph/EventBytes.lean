import Mathlib.Tactic.IntervalCases
import Schnauzer.Depgraph.TraceParser
import Schnauzer.Lib.ExpandedHistory

/-!
# What is stored is loaded

`Event::storeEvent` writes the memory of an event, with its five bytes of padding, and the loop of `LoadTrace` reads a
file in pieces of that size.

## What is proved

* `ofMemory_toMemory` — an event of the source's widths is read back, whatever the padding holds.
* `events_of_stored` — the records of a file that was stored are the events that were stored.
* `stored_loaded` — **the file of a list of events** is loaded like the list.
-/

namespace Schnauzer

open CausalOrder LittleEndian

/-! ### One event -/

/-- The bytes of a field, the lowest first. -/
def fieldBytes (n w : ℕ) : List UInt8 := (List.range w).map fun i => UInt8.ofNat (n / 256 ^ i % 256)

/-- The type as an `int8_t`. -/
def OpTy.toByte (ty : OpTy) : UInt8 := (Int8.ofInt ty.code).toUInt8

namespace Event

/-- An event whose fields have the width of the source's. -/
structure Fitting (e : Event) : Prop where
  instUniqueId : e.instUniqueId < 256 ^ 8
  timestamp : e.timestamp < 256 ^ 8
  varAddr : e.varAddr < 256 ^ 8
  varLen : e.varLen < 256 ^ 8
  opTy : e.opTy ∈ OpTy.enumerators
  tid : e.tid < 256
  remoteTid : e.remoteTid < 256

instance (e : Event) : Decidable e.Fitting :=
  decidable_of_iff (e.instUniqueId < 256 ^ 8 ∧ e.timestamp < 256 ^ 8 ∧ e.varAddr < 256 ^ 8 ∧ e.varLen < 256 ^ 8 ∧
      e.opTy ∈ OpTy.enumerators ∧ e.tid < 256 ∧ e.remoteTid < 256)
    ⟨fun ⟨h₁, h₂, h₃, h₄, h₅, h₆, h₇⟩ => ⟨h₁, h₂, h₃, h₄, h₅, h₆, h₇⟩,
      fun h => ⟨h.instUniqueId, h.timestamp, h.varAddr, h.varLen, h.opTy, h.tid, h.remoteTid⟩⟩

/-- The memory of an event; `pad` is what its padding holds. -/
def toMemory (pad : ℕ → UInt8) (e : Event) : List UInt8 :=
  fieldBytes e.instUniqueId 8 ++ fieldBytes e.timestamp 8 ++ fieldBytes e.varAddr 8 ++ fieldBytes e.varLen 8 ++
    [e.opTy.toByte, UInt8.ofNat e.tid, UInt8.ofNat e.remoteTid] ++ (List.range 5).map pad

/-- `Event::storeEvent`; `none` is its `assert`. -/
def storeEvent (pad : ℕ → UInt8) (e : Event) : Option (List UInt8) :=
  if e.Storable then some (e.toMemory pad) else none

end Event

/-- A list of events, one behind the other; `pads k` is the padding of event `k`. -/
def storeEvents (pads : ℕ → ℕ → UInt8) : ℕ → List Event → Option (List UInt8)
  | _, [] => some []
  | k, e :: evts => do
    let bytes ← e.storeEvent (pads k)
    let rest ← storeEvents pads (k + 1) evts
    return bytes ++ rest

variable {e : Event} {evts : List Event} {pad : ℕ → UInt8} {pads : ℕ → ℕ → UInt8} {bytes : List UInt8} {k n w : ℕ}

theorem OpTy.ofByte_toByte {ty : OpTy} (h : ty ∈ OpTy.enumerators) : OpTy.ofByte ty.toByte = ty := by
  have hall : ∀ ty ∈ OpTy.enumerators, OpTy.ofByte ty.toByte = ty := by decide
  exact hall ty h

@[simp] theorem Event.length_toMemory : (e.toMemory pad).length = Event.size := by
  simp [toMemory, fieldBytes, Event.size]

/-- A field that holds the digits of a number holds the number. -/
theorem field_eq {mem : ℕ → UInt8} {off : ℕ} (h : ∀ i < w, mem (off + i) = UInt8.ofNat (n / 256 ^ i % 256))
    (hn : n < 256 ^ w) : field mem off w = n := by
  rw [← Nat.mod_eq_of_lt hn, ← ofDigits_digit 256 n w, field]
  congr 1
  refine List.map_congr_left fun i hi => ?_
  rw [h i (List.mem_range.mp hi), UInt8.toNat_ofNat', Nat.mod_eq_of_lt (Nat.mod_lt _ (by decide))]

theorem fieldBytes_getElem? {i : ℕ} (hi : i < w) : (fieldBytes n w)[i]? = some (UInt8.ofNat (n / 256 ^ i % 256)) := by
  rw [fieldBytes, List.getElem?_map, List.getElem?_range hi, Option.map_some]

/-- **An event is read back** from its memory. -/
theorem ofMemory_toMemory (h : e.Fitting) {mem : ℕ → UInt8} (hmem : ∀ i < Event.size, (e.toMemory pad)[i]? = some (mem i)) :
    Event.ofMemory mem = e := by
  have hfield : ∀ off n, (∀ i < 8, (e.toMemory pad)[off + i]? = (fieldBytes n 8)[i]?) → off + 8 ≤ Event.size →
      n < 256 ^ 8 → field mem off 8 = n := by
    intro off n hbytes hoff hn
    refine field_eq (fun i hi => ?_) hn
    have hb := hbytes i hi
    rw [hmem _ (by omega), fieldBytes_getElem? hi] at hb
    exact Option.some.inj hb
  have hbyte : ∀ i b, i < Event.size → (e.toMemory pad)[i]? = some b → mem i = b := by
    intro i b hi hb
    rw [hmem i hi] at hb
    exact Option.some.inj hb
  obtain ⟨inst, ts, addr, len, ty, tid, remote⟩ := e
  rw [Event.ofMemory, hfield 0 inst ?_ (by decide) h.instUniqueId, hfield 8 ts ?_ (by decide) h.timestamp,
    hfield 16 addr ?_ (by decide) h.varAddr, hfield 24 len ?_ (by decide) h.varLen, hbyte 32 ty.toByte (by decide) rfl,
    hbyte 33 (UInt8.ofNat tid) (by decide) rfl, hbyte 34 (UInt8.ofNat remote) (by decide) rfl,
    OpTy.ofByte_toByte h.opTy, UInt8.toNat_ofNat', UInt8.toNat_ofNat', Nat.mod_eq_of_lt h.tid,
    Nat.mod_eq_of_lt h.remoteTid]
  all_goals
    intro i hi
    interval_cases i <;> rfl

/-! ### A file of events -/

/-- What is written, when no `assert` fails. -/
theorem storeEvents_eq_some (h : storeEvents pads k evts = some bytes) :
    bytes.length = Event.size * evts.length ∧ ∀ i e, evts[i]? = some e → ∀ j < Event.size,
      bytes[Event.size * i + j]? = (e.toMemory (pads (k + i)))[j]? := by
  induction evts generalizing k bytes with
  | nil =>
    cases h
    exact ⟨rfl, by simp⟩
  | cons e evts ih =>
    obtain ⟨first, hfirst, h⟩ := Option.bind_eq_some_iff.mp h
    obtain ⟨rest, hrest, h⟩ := Option.bind_eq_some_iff.mp h
    cases h
    unfold Event.storeEvent at hfirst
    split_ifs at hfirst
    cases hfirst
    obtain ⟨hlen, hget⟩ := ih hrest
    refine ⟨?_, fun i e' he' j hj => ?_⟩
    · rw [List.length_append, Event.length_toMemory, hlen, List.length_cons]
      ring
    · cases i with
      | zero =>
        cases he'
        rw [Nat.mul_zero, Nat.zero_add, Nat.add_zero, List.getElem?_append_left (by rwa [Event.length_toMemory])]
      | succ i =>
        have hplace : Event.size * (i + 1) + j = (e.toMemory (pads k)).length + (Event.size * i + j) := by
          rw [Event.length_toMemory]
          ring
        rw [hplace, List.getElem?_append_right (Nat.le_add_right _ _), Nat.add_sub_cancel_left,
          hget i e' he' j hj, Nat.add_right_comm, Nat.add_assoc]

/-- Which events are written. -/
theorem storeEvents_isSome_iff : (storeEvents pads k evts).isSome ↔ ∀ e ∈ evts, e.Storable := by
  induction evts generalizing k with
  | nil => simp [storeEvents]
  | cons e evts ih =>
    rw [List.forall_mem_cons, ← @ih (k + 1), storeEvents, Event.storeEvent]
    by_cases he : e.Storable
    · cases storeEvents pads (k + 1) evts <;> simp [he]
    · simp [he]

theorem exists_stored (pads : ℕ → ℕ → UInt8) (hstorable : ∀ e ∈ evts, e.Storable) :
    ∃ bytes, storeEvents pads 0 evts = some bytes ∧ bytes.length = Event.size * evts.length := by
  obtain ⟨bytes, h⟩ := Option.isSome_iff_exists.mp ((@storeEvents_isSome_iff _ pads 0).mpr hstorable)
  exact ⟨bytes, h, (storeEvents_eq_some h).1⟩

section Stored

variable (h : storeEvents pads 0 evts = some bytes) (hlen : bytes.length < 2 ^ 63)

include h

/-- The records of the file. -/
theorem nrRecord_of_stored : (⟨bytes, hlen⟩ : TraceFile).nrRecord = evts.length := by
  rw [TraceFile.nrRecord, (storeEvents_eq_some h).1, Nat.mul_div_cancel_left _ (by decide)]

/-- **The events of the file** are those that were stored. -/
theorem events_of_stored (hfit : ∀ e ∈ evts, e.Fitting) : (⟨bytes, hlen⟩ : TraceFile).events = evts := by
  refine List.ext_getElem? fun i => ?_
  rw [TraceFile.events, nrRecord_of_stored h, List.getElem?_map]
  by_cases hi : i < evts.length
  · rw [List.getElem?_range hi, List.getElem?_eq_getElem hi, Option.map_some]
    refine congrArg some (@ofMemory_toMemory _ (pads (0 + i)) (hfit _ (List.getElem_mem hi)) _ fun j hj => ?_)
    rw [← (storeEvents_eq_some h).2 i _ (List.getElem?_eq_getElem hi) j hj]
    have hlt : Event.size * i + j < bytes.length := by
      rw [(storeEvents_eq_some h).1]
      exact (Nat.add_lt_add_left hj _).trans_le (Nat.mul_le_mul_left Event.size hi)
    rw [List.getElem?_eq_getElem hlt, List.getD_eq_getElem?_getD, List.getElem?_eq_getElem hlt, Option.getD_some]
  · rw [List.getElem?_eq_none (by simpa using hi), List.getElem?_eq_none (not_lt.mp hi), Option.map_none]

end Stored

/-- **The file of a list of events** is loaded like the list: of events with the widths of the source, each of a type
that may be stored, the file is written, the loop over its bytes ends behind the last of them, and it ends with the graph
of the list, or with an `assert` where the list has none. -/
theorem stored_loaded (hfit : ∀ e ∈ evts, e.Fitting) (hstorable : ∀ e ∈ evts, e.Storable)
    (hlen : Event.size * evts.length < 2 ^ 63) : ∃ bytes, storeEvents pads 0 evts = some bytes ∧
      ∃ hbytes : bytes.length < 2 ^ 63, ∀ junk : ℕ → ℕ → UInt8,
        (LoadRun.run ⟨bytes, hbytes⟩ junk evts.length).Ended ∧
          ((LoadRun.run ⟨bytes, hbytes⟩ junk evts.length).aborted = none ∧
              loadTrace evts = .ok (LoadRun.run ⟨bytes, hbytes⟩ junk evts.length).loader.finish ∨
            (LoadRun.run ⟨bytes, hbytes⟩ junk evts.length).aborted.isSome ∧ ∀ g, loadTrace evts ≠ .ok g) := by
  obtain ⟨bytes, h, hbytes⟩ := exists_stored pads hstorable
  have hlt : bytes.length < 2 ^ 63 := hbytes ▸ hlen
  have hdvd : Event.size ∣ bytes.length := hbytes ▸ Nat.dvd_mul_right _ _
  refine ⟨bytes, h, hlt, fun junk => ?_⟩
  have hrun := @TraceFile.run_whole ⟨bytes, hlt⟩ hdvd junk
  rwa [nrRecord_of_stored h, events_of_stored h _ hfit] at hrun

/-- Thread 0 creates thread 1, which stores eight bytes. -/
def createdFile : List Event := [.makeThreadEvent 7 0 0 .create 1, .makeArrayAccessEvent 8 1 1 .st 4096 8]

theorem stored_loaded_createdFile : ∃ bytes, storeEvents (fun _ _ => 0) 0 createdFile = some bytes ∧
    ∃ hbytes : bytes.length < 2 ^ 63, ∀ junk : ℕ → ℕ → UInt8,
      (LoadRun.run ⟨bytes, hbytes⟩ junk createdFile.length).Ended ∧
        ((LoadRun.run ⟨bytes, hbytes⟩ junk createdFile.length).aborted = none ∧
            loadTrace createdFile = .ok (LoadRun.run ⟨bytes, hbytes⟩ junk createdFile.length).loader.finish ∨
          (LoadRun.run ⟨bytes, hbytes⟩ junk createdFile.length).aborted.isSome ∧
            ∀ g, loadTrace createdFile ≠ .ok g) :=
  stored_loaded (by decide) (by decide) (by decide)

end Schnauzer
