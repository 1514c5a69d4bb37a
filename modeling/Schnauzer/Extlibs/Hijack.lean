import Schnauzer.Lib.Regions
import Mathlib.Algebra.BigOperators.Group.List.Basic
import Mathlib.Data.List.Pairwise
import Mathlib.Data.UInt

/-!
# The interposed allocator

`extlibs/hijack.c`: `malloc`, `realloc` and `calloc` put the size of a block in front of it and
take the memory from a buffer of `TMP_BUF_SIZE` bytes while `do_init` looks up the real
functions, and from the real `malloc` afterwards.

Memory is `Regions.Memory`, with `__tmp_buf` as its first region; the real `malloc` answers
`NULL` or a new region of the size that it is asked for, whatever bytes are in it. A step is
`none` where the source stores outside of a region or through `NULL`. Between calls the
program stores into its blocks. `returned` is no variable of the source: it records the
blocks handed out, each with the number of bytes asked for, so that `realloc` is only called
with such a block or `NULL`.

## What is proved

* `sound_iff_fits` — the blocks are as they should be in every process where the early requests
  fit the buffer, headers included, and later ones a `size_t`, and in no other.
-/

namespace Schnauzer

open Regions

namespace Hijack

/-- `TMP_BUF_SIZE`. -/
def TMP_BUF_SIZE : ℕ := 4096

/-- `sizeof(size_t)`. -/
def SIZEOF_SIZE_T : ℕ := 8

/-- `__init_status`. -/
inductive InitStatus where
  /-- `INIT_NOT`. -/
  | initNot
  /-- `INIT_ING`. -/
  | initIng
  /-- `INIT_DONE`. -/
  | initDone
  deriving DecidableEq

/-- The variables of the library, and memory. -/
structure State where
  /-- `__init_status`. -/
  initStatus : InitStatus
  /-- `__tmp_buf_pos`. -/
  tmpBufPos : UInt64
  /-- `__tmp_buf`, and the blocks of the real `malloc`. -/
  mem : Memory
  /-- The blocks handed out so far. -/
  returned : List Range

/-- What the real `malloc` answers: `NULL`, or a new block with these bytes. -/
abbrev Answer := Option (ℕ → UInt8)

/-- A process in which no function was called. -/
def init : State := ⟨.initNot, 0, ⟨[TMP_BUF_SIZE], fun _ _ => 0⟩, []⟩

/-- `tmp_alloc`. -/
def tmpAlloc (s : State) (size : UInt64) : Ptr × State :=
  (⟨0, s.tmpBufPos.toNat⟩, { s with tmpBufPos := s.tmpBufPos + size })

/-- A call of `__real_malloc`. -/
def realMalloc (s : State) (size : UInt64) : Answer → Option Ptr × State
  | none => (none, s)
  | some bytes =>
    let (ptr, mem) := s.mem.alloc size.toNat bytes
    (some ptr, { s with mem := mem })

/-- `do_alloc`. -/
def doAlloc (s : State) (size : UInt64) (ans : Answer) : Option (Option Ptr × State) :=
  let (ptr, s) :=
    if s.initStatus = .initIng then
      let (ptr, s) := tmpAlloc s (8 + size)
      (some ptr, s)
    else realMalloc s (8 + size) ans
  match ptr with
  | none => some (none, s)
  | some ptr => do
    let mem ← s.mem.write ptr SIZEOF_SIZE_T (Memory.wordBytes size.toNat)
    return (some (ptr.add SIZEOF_SIZE_T), { s with mem := mem })

/-- `fetch_size`. -/
def fetchSize (mem : Memory) : Option Ptr → ℕ
  | none => 0
  | some ptr => mem.word ⟨ptr.region, ptr.off - SIZEOF_SIZE_T⟩

/-- `malloc`, after the check of `__init_status`. -/
def malloc (s : State) (size : UInt64) (ans : Answer) : Option (Option Ptr × State) :=
  doAlloc s size ans

/-- `realloc`, after the check of `__init_status`. -/
def realloc (s : State) (ptr : Option Ptr) (size : UInt64) (ans : Answer) :
    Option (Option Ptr × State) := do
  let (newPtr, s) ← doAlloc s size ans
  match ptr, newPtr with
  | some ptr, some newPtr =>
    let len := min (fetchSize s.mem ptr) size.toNat
    if s.mem.Holds ptr len then
      let mem ← s.mem.write newPtr len fun i => s.mem.byte ptr.region (ptr.off + i)
      return (some newPtr, { s with mem := mem })
    else none
  | _, _ => return (newPtr, s)

/-- `calloc`, after the check of `__init_status`. -/
def calloc (s : State) (num size : UInt64) (ans : Answer) : Option (Option Ptr × State) := do
  let (ptr, s) ← doAlloc s (num * size) ans
  match ptr with
  | none => if num * size = 0 then return (none, s) else none
  | some ptr =>
    let mem ← s.mem.write ptr (num * size).toNat fun _ => 0
    return (some ptr, { s with mem := mem })

/-- A call, with the answer of the real `malloc` should it be asked. -/
inductive Call where
  /-- `malloc(size)`. -/
  | malloc (size : UInt64) (ans : Answer)
  /-- `realloc(ptr, size)`, where `ptr` is the block handed out at that place, or `NULL`. -/
  | realloc (which : ℕ) (size : UInt64) (ans : Answer)
  /-- `calloc(num, size)`. -/
  | calloc (num size : UInt64) (ans : Answer)

/-- How many bytes are asked for. -/
def Call.bytes : Call → ℕ
  | .malloc size _ => size.toNat
  | .realloc _ size _ => size.toNat
  | .calloc num size _ => num.toNat * size.toNat

/-- The function that is called. -/
def serve (s : State) : Call → Option (Option Ptr × State)
  | .malloc size ans => malloc s size ans
  | .realloc which size ans => realloc s (s.returned[which]?.map Range.ptr) size ans
  | .calloc num size ans => calloc s num size ans

/-- A block that was handed out. -/
def handOut (s : State) (bytes : ℕ) : Option Ptr → State
  | none => s
  | some ptr => { s with returned := s.returned ++ [⟨ptr, bytes⟩] }

/-- A store of the program into one of its blocks. -/
structure Store where
  /-- The block, as the place at which it was handed out. -/
  which : ℕ
  /-- The byte of the block. -/
  pos : ℕ
  /-- What is stored. -/
  val : UInt8

/-- The program stores. -/
def store (s : State) (st : Store) : Option State :=
  match s.returned[st.which]? with
  | none => some s
  | some b =>
    if st.pos < b.len then
      (s.mem.write (b.ptr.add st.pos) 1 fun _ => st.val).map fun mem => { s with mem := mem }
    else some s

/-- What a program does next: it stores into its blocks and makes a call. -/
structure Request where
  /-- The stores. -/
  stores : List Store
  /-- The call. -/
  call : Call

/-- A call that was served. -/
structure Entry where
  /-- The state before. -/
  before : State
  /-- The call. -/
  call : Call
  /-- What was returned. -/
  result : Option Ptr
  /-- The state after. -/
  after : State

/-- One request. -/
def request (s : State) (req : Request) : Option Entry := do
  let s ← req.stores.foldlM store s
  let (ptr, s') ← serve s req.call
  return ⟨s, req.call, ptr, handOut s' req.call.bytes ptr⟩

/-- Requests, once `__init_status` is not `INIT_NOT` any more. -/
def requests : State → List Request → Option (List Entry × State)
  | s, [] => some ([], s)
  | s, req :: reqs => do
    let e ← request s req
    let (es, s) ← requests e.after reqs
    return (e :: es, s)

/-- `do_init`, where `dlsym` and `fprintf` make the requests `nested`. -/
def doInit (nested : List Request) (s : State) : Option (List Entry × State) := do
  let (es, s) ← requests { s with initStatus := .initIng } nested
  return (es, { s with initStatus := .initDone })

/-- Requests of the program: the first of them calls `do_init`. -/
def process (nested : List Request) (s : State) : List Request → Option (List Entry × State)
  | [] => some ([], s)
  | req :: reqs => do
    let (es, s) ← if s.initStatus = .initNot then doInit nested s else some ([], s)
    let (es', s) ← requests s (req :: reqs)
    return (es ++ es', s)

/-! ### What is expected -/

/-- The blocks handed out lie inside their regions, share no bytes, and have their sizes in
front of them. -/
structure Valid (s : State) : Prop where
  /-- Inside. -/
  inside : ∀ b ∈ s.returned, s.mem.Holds b.ptr b.len
  /-- Disjoint. -/
  apart : s.returned.Pairwise Range.Apart
  /-- The size. -/
  sized : ∀ b ∈ s.returned, fetchSize s.mem b.ptr = b.len

/-- What was returned is as it should be. -/
structure Entry.Sound (e : Entry) : Prop where
  /-- The block, and all that were returned before. -/
  valid : Valid e.after
  /-- The block of a `calloc` is zero. -/
  zero : ∀ num size ans p, e.call = .calloc num size ans → e.result = some p →
    ∀ i < num.toNat * size.toNat, e.after.mem.byte p.region (p.off + i) = 0
  /-- The block of a `realloc` begins as the old one did. -/
  kept : ∀ which size ans b p, e.call = .realloc which size ans →
    e.before.returned[which]? = some b → e.result = some p →
      ∀ i < min b.len size.toNat,
        e.after.mem.byte p.region (p.off + i) = e.before.mem.byte b.ptr.region (b.ptr.off + i)

/-- Every call of the process returns, and what it returns is as it should be. -/
def Sound (nested reqs : List Request) : Prop :=
  ∃ es s, process nested init reqs = some (es, s) ∧ ∀ e ∈ es, e.Sound

/-- A later call asks for a size that fits, with the header, a `size_t`, or the real `malloc`
answers `NULL`; the bytes that `calloc` then clears are none. -/
def Call.Fits : Call → Prop
  | .malloc size ans => ans = none ∨ SIZEOF_SIZE_T + size.toNat < UInt64.size
  | .realloc _ size ans => ans = none ∨ SIZEOF_SIZE_T + size.toNat < UInt64.size
  | .calloc num size ans => if ans.isNone then num.toNat * size.toNat % UInt64.size = 0
    else SIZEOF_SIZE_T + num.toNat * size.toNat < UInt64.size

/-- The requests that are made while `do_init` runs fit the buffer with their headers, and the
calls made afterwards fit. -/
def Fits (nested reqs : List Request) : Prop :=
  (reqs ≠ [] → (nested.map fun req => SIZEOF_SIZE_T + req.call.bytes).sum ≤ TMP_BUF_SIZE) ∧
    ∀ req ∈ reqs, req.call.Fits

/-! ### The invariant -/

/-- The bytes of a block, with those of its header. -/
def whole (b : Range) : Range := ⟨⟨b.ptr.region, b.ptr.off - SIZEOF_SIZE_T⟩, SIZEOF_SIZE_T + b.len⟩

/-- A block, in memory of which the buffer is used up to `pos`. -/
structure BlockAt (mem : Memory) (pos : ℕ) (b : Range) : Prop where
  /-- There is room for the header. -/
  header : SIZEOF_SIZE_T ≤ b.ptr.off
  /-- The region was allocated. -/
  region : b.ptr.region < mem.sizes.length
  /-- The block lies in it. -/
  inside : mem.Holds b.ptr b.len
  /-- The buffer is used up to the block's end. -/
  used : b.ptr.region = 0 → b.ptr.off + b.len ≤ pos
  /-- The header holds the size. -/
  sized : mem.word (whole b).ptr = b.len

/-- What holds between calls. -/
structure Inv (s : State) : Prop where
  /-- The buffer. -/
  buffer : s.mem.sizes[0]? = some TMP_BUF_SIZE
  /-- What is used of it. -/
  pos : s.tmpBufPos.toNat ≤ TMP_BUF_SIZE
  /-- The blocks. -/
  block : ∀ b ∈ s.returned, BlockAt s.mem s.tmpBufPos.toNat b
  /-- Headers and blocks share no bytes. -/
  apart : s.returned.Pairwise fun a b => (whole a).Apart (whole b)

instance : Std.Symm fun a b => (whole a).Apart (whole b) := ⟨fun _ _ h => h.symm⟩

theorem apart_of_whole {a b : Range} (ha : SIZEOF_SIZE_T ≤ a.ptr.off) (hb : SIZEOF_SIZE_T ≤ b.ptr.off)
    (h : (whole a).Apart (whole b)) : a.Apart b := by
  intro hreg
  have := h hreg
  simp only [whole] at this
  omega

theorem Inv.valid {s : State} (h : Inv s) : Valid s where
  inside := fun b hb => (h.block b hb).inside
  apart := h.apart.imp_of_mem fun ha hb hab =>
    apart_of_whole (h.block _ ha).header (h.block _ hb).header hab
  sized := fun b hb => (h.block b hb).sized

/-- Another phase changes nothing for the blocks. -/
theorem Inv.setStatus {s : State} (h : Inv s) (status : InitStatus) : Inv { s with initStatus := status } :=
  ⟨h.buffer, h.pos, h.block, h.apart⟩

theorem inv_init : Inv init where
  buffer := rfl
  pos := by decide
  block := fun b hb => by cases hb
  apart := .nil

variable {s s' : State} {mem : Memory} {b : Range} {p : Ptr} {len : ℕ} {f : ℕ → UInt8}

/-- The bytes of a block are apart from its header and from the other blocks with theirs. -/
theorem Inv.apart_header (h : Inv s) {a : Range} (ha : a ∈ s.returned) (hb : b ∈ s.returned)
    (hreg : p.region = b.ptr.region) (hlo : b.ptr.off ≤ p.off) (hhi : p.off + len ≤ b.ptr.off + b.len) :
    Range.Apart ⟨p, len⟩ ⟨(whole a).ptr, SIZEOF_SIZE_T⟩ := by
  have hha := (h.block a ha).header
  intro hreg'
  simp only [whole] at hreg' ⊢
  by_cases hab : a = b
  · subst hab
    omega
  · have hapart := h.apart.forall ha hb hab (hreg'.symm.trans hreg)
    simp only [whole] at hapart
    omega

/-- A store into a block leaves its header and the other blocks alone. -/
theorem Inv.write (h : Inv s) (p : Ptr) (len : ℕ) (f : ℕ → UInt8) (hb : b ∈ s.returned) (hreg : p.region = b.ptr.region)
    (hlo : b.ptr.off ≤ p.off) (hhi : p.off + len ≤ b.ptr.off + b.len) :
    ∃ mem, s.mem.write p len f = some mem ∧ Inv { s with mem := mem } := by
  have hblk := h.block b hb
  have hholds : s.mem.Holds p len := by
    have := hblk.inside
    simp only [Memory.Holds, hreg] at this ⊢
    omega
  obtain ⟨mem, hmem⟩ : ∃ mem, s.mem.write p len f = some mem :=
    ⟨_, Memory.write_eq_some.mpr ⟨hholds, rfl⟩⟩
  have hsizes := Memory.sizes_write hmem
  refine ⟨mem, hmem, ⟨hsizes ▸ h.buffer, h.pos, fun a ha => ?_, h.apart⟩⟩
  have hblka := h.block a ha
  refine ⟨hblka.header, hsizes ▸ hblka.region, Memory.holds_write hmem ▸ hblka.inside, hblka.used, ?_⟩
  rw [Memory.word_write_of_apart hmem (h.apart_header ha hb hreg hlo hhi), hblka.sized]

theorem inv_store (h : Inv s) (st : Store) :
    ∃ s', store s st = some s' ∧ Inv s' ∧ s'.initStatus = s.initStatus ∧ s'.tmpBufPos = s.tmpBufPos := by
  unfold store
  split
  · exact ⟨s, rfl, h, rfl, rfl⟩
  · rename_i b hb
    split_ifs with hpos
    · obtain ⟨mem, hmem, hinv⟩ := h.write (b.ptr.add st.pos) 1 (fun _ => st.val)
        (List.mem_of_getElem? hb) rfl (Nat.le_add_right _ _) (by simp only [Ptr.add]; omega)
      exact ⟨_, by rw [hmem]; rfl, hinv, rfl, rfl⟩
    · exact ⟨s, rfl, h, rfl, rfl⟩

theorem inv_stores (h : Inv s) (sts : List Store) :
    ∃ s', sts.foldlM store s = some s' ∧ Inv s' ∧ s'.initStatus = s.initStatus ∧
      s'.tmpBufPos = s.tmpBufPos := by
  induction sts generalizing s with
  | nil => exact ⟨s, rfl, h, rfl, rfl⟩
  | cons st sts ih =>
    obtain ⟨s₁, hs₁, hinv₁, hst₁, hpos₁⟩ := inv_store h st
    obtain ⟨s₂, hs₂, hinv₂, hst₂, hpos₂⟩ := ih hinv₁
    refine ⟨s₂, ?_, hinv₂, hst₂.trans hst₁, hpos₂.trans hpos₁⟩
    rw [List.foldlM_cons, hs₁]
    exact hs₂

/-! ### Reserving memory -/

/-- `tmp_alloc` or the real `malloc` reserved `len` bytes at `p`. -/
structure Reserved (s s' : State) (p : Ptr) (len : ℕ) : Prop where
  /-- The blocks so far are kept. -/
  inv : Inv s'
  /-- They are the same. -/
  returned : s'.returned = s.returned
  /-- Their bytes are, too. -/
  frame : ∀ b ∈ s.returned, ∀ o, s'.mem.byte b.ptr.region o = s.mem.byte b.ptr.region o
  /-- The region was allocated. -/
  region : p.region < s'.mem.sizes.length
  /-- The bytes lie in it. -/
  holds : s'.mem.Holds p len
  /-- The buffer is used up to their end. -/
  used : p.region = 0 → p.off + len ≤ s'.tmpBufPos.toNat
  /-- No block has any of them. -/
  apart : ∀ b ∈ s.returned, (whole b).Apart ⟨p, len⟩

theorem holds_buffer (h : Inv s) (p : Ptr) (hp : p.region = 0) :
    s.mem.Holds p len ↔ p.off + len ≤ TMP_BUF_SIZE := by
  rw [Memory.Holds, hp, List.getD_eq_getElem?_getD, h.buffer]
  rfl

theorem reserved_tmpAlloc (h : Inv s) (size : UInt64)
    (hfit : s.tmpBufPos.toNat + size.toNat ≤ TMP_BUF_SIZE) :
    Reserved s (tmpAlloc s size).2 (tmpAlloc s size).1 size.toNat ∧
      (tmpAlloc s size).2.tmpBufPos.toNat = s.tmpBufPos.toNat + size.toNat := by
  have hpos : (s.tmpBufPos + size).toNat = s.tmpBufPos.toNat + size.toNat := by
    rw [UInt64.toNat_add]
    exact Nat.mod_eq_of_lt (hfit.trans_lt (by decide))
  have hlt : 0 < s.mem.sizes.length := (List.getElem?_eq_some_iff.mp h.buffer).1
  refine ⟨⟨⟨h.buffer, hpos.trans_le hfit, fun b hb => ?_, h.apart⟩, rfl, fun _ _ _ => rfl, hlt, ?_, ?_, ?_⟩,
    hpos⟩
  · have hblk := h.block b hb
    exact ⟨hblk.header, hblk.region, hblk.inside,
      fun hreg => (hblk.used hreg).trans (hpos.ge.trans' (Nat.le_add_right _ _)), hblk.sized⟩
  · exact (holds_buffer h _ rfl).mpr hfit
  · exact fun _ => hpos.ge
  · intro b hb hreg
    have hblk := h.block b hb
    have hused := hblk.used hreg
    have hhdr := hblk.header
    simp only [whole, tmpAlloc]
    omega

theorem reserved_realMalloc (h : Inv s) (size : UInt64) (bytes : ℕ → UInt8) :
    Reserved s { s with mem := (s.mem.alloc size.toNat bytes).2 } (s.mem.alloc size.toNat bytes).1
      size.toNat := by
  have hlt : 0 < s.mem.sizes.length := (List.getElem?_eq_some_iff.mp h.buffer).1
  have hregion : ∀ {r}, r < s.mem.sizes.length → r < (s.mem.alloc size.toNat bytes).2.sizes.length :=
    fun hr => hr.trans_le (by simp [Memory.alloc])
  refine ⟨⟨?_, h.pos, fun b hb => ?_, h.apart⟩, rfl, fun b hb o => ?_, ?_, ?_, fun hreg => ?_,
    fun b hb => ?_⟩
  · exact (List.getElem?_append_left hlt).trans h.buffer
  · have hblk := h.block b hb
    exact ⟨hblk.header, hregion hblk.region, Memory.holds_alloc hblk.inside hblk.region, hblk.used,
      (Memory.word_alloc (p := (whole b).ptr) hblk.region).trans hblk.sized⟩
  · exact Memory.byte_alloc (h.block b hb).region o
  · simp [Memory.alloc]
  · simp [Memory.Holds, Memory.alloc]
  · exact absurd hreg hlt.ne'
  · exact Range.apart_of_region_ne (h.block b hb).region.ne

/-- The header in front of reserved memory makes it a block. -/
theorem Reserved.handOut {len : ℕ} (h : Reserved s s' p (SIZEOF_SIZE_T + len)) (hlen : len < UInt64.size) :
    ∃ mem, s'.mem.write p SIZEOF_SIZE_T (Memory.wordBytes len) = some mem ∧
      Inv (handOut { s' with mem := mem } len (some (p.add SIZEOF_SIZE_T))) ∧
      ∀ b ∈ s.returned, ∀ i < b.len,
        mem.byte b.ptr.region (b.ptr.off + i) = s.mem.byte b.ptr.region (b.ptr.off + i) := by
  have hholds : s'.mem.Holds p SIZEOF_SIZE_T := by
    have := h.holds
    simp only [Memory.Holds] at this ⊢
    omega
  obtain ⟨mem, hmem⟩ : ∃ mem, s'.mem.write p SIZEOF_SIZE_T (Memory.wordBytes len) = some mem :=
    ⟨_, Memory.write_eq_some.mpr ⟨hholds, rfl⟩⟩
  have hsizes := Memory.sizes_write hmem
  have hnew : whole ⟨p.add SIZEOF_SIZE_T, len⟩ = ⟨p, SIZEOF_SIZE_T + len⟩ := by
    simp [whole, Ptr.add]
  have hapart : ∀ b ∈ s.returned, ∀ {q : Ptr} {n : ℕ}, q.region = b.ptr.region →
      b.ptr.off - SIZEOF_SIZE_T ≤ q.off → q.off + n ≤ b.ptr.off - SIZEOF_SIZE_T + (SIZEOF_SIZE_T + b.len) →
      Range.Apart ⟨p, SIZEOF_SIZE_T⟩ ⟨q, n⟩ := by
    intro b hb q n hreg hlo hhi hreg'
    have := h.apart b hb (hreg.symm.trans hreg'.symm)
    simp only [whole] at this hreg' ⊢
    omega
  have hold : ∀ b ∈ s'.returned, BlockAt mem s'.tmpBufPos.toNat b := by
    intro b hb
    have hblk := h.inv.block b hb
    refine ⟨hblk.header, hsizes ▸ hblk.region, Memory.holds_write hmem ▸ hblk.inside, hblk.used, ?_⟩
    rw [Memory.word_write_of_apart hmem, hblk.sized]
    exact hapart b (h.returned ▸ hb) rfl le_rfl (by simp only [whole, SIZEOF_SIZE_T]; omega)
  have hblk : BlockAt mem s'.tmpBufPos.toNat ⟨p.add SIZEOF_SIZE_T, len⟩ := by
    refine ⟨Nat.le_add_left _ _, hsizes ▸ h.region, ?_, fun hreg => ?_, ?_⟩
    · have hin := h.holds
      rw [Memory.holds_write hmem]
      simp only [Memory.Holds, Ptr.add] at hin ⊢
      omega
    · have hused := h.used hreg
      simp only [Ptr.add]
      omega
    · rw [hnew, Memory.word_write hmem]
      exact Nat.mod_eq_of_lt hlen
  refine ⟨mem, hmem, ⟨hsizes ▸ h.inv.buffer, h.inv.pos, fun b hb => ?_, ?_⟩, fun b hb i hi => ?_⟩
  · rcases List.mem_append.mp hb with hb | hb
    · exact hold b hb
    · obtain rfl := List.mem_singleton.mp hb
      exact hblk
  · refine List.pairwise_append.mpr ⟨h.inv.apart, List.pairwise_singleton _ _, fun b hb c hc => ?_⟩
    obtain rfl := List.mem_singleton.mp hc
    rw [hnew]
    exact h.apart b (h.returned ▸ hb)
  · have hhdr := (h.inv.block b (h.returned.symm ▸ hb)).header
    rw [← h.frame b hb]
    exact Memory.byte_write_of_apart (r := b) hmem (hapart b hb rfl (by omega) (by omega)) hi

/-- The memory is there that `do_alloc` asks for. -/
def Room (s : State) (bytes : ℕ) (ans : Answer) : Prop :=
  if s.initStatus = .initIng then s.tmpBufPos.toNat + (SIZEOF_SIZE_T + bytes) ≤ TMP_BUF_SIZE
  else ans = none ∨ SIZEOF_SIZE_T + bytes < UInt64.size

/-- What is used of the buffer afterwards. -/
def usedAfter (s : State) (bytes : ℕ) : ℕ :=
  if s.initStatus = .initIng then s.tmpBufPos.toNat + (SIZEOF_SIZE_T + bytes) else s.tmpBufPos.toNat

/-- **`do_alloc`** returns a new block if there is room, or `NULL` if the real `malloc` does. -/
theorem doAlloc_spec (h : Inv s) {size : UInt64} {ans : Answer} (hroom : Room s size.toNat ans) :
    ∃ r s', doAlloc s size ans = some (r, s') ∧ Inv (handOut s' size.toNat r) ∧
      s'.returned = s.returned ∧ s'.initStatus = s.initStatus ∧
      s'.tmpBufPos.toNat = usedAfter s size.toNat ∧
      (r = none ↔ s.initStatus ≠ .initIng ∧ ans = none) ∧
      ∀ b ∈ s.returned, ∀ i < b.len,
        s'.mem.byte b.ptr.region (b.ptr.off + i) = s.mem.byte b.ptr.region (b.ptr.off + i) := by
  have hneed : ∀ {n}, SIZEOF_SIZE_T + size.toNat ≤ n → n < UInt64.size →
      (8 + size).toNat = SIZEOF_SIZE_T + size.toNat := by
    intro n hle hlt
    rw [UInt64.toNat_add]
    exact Nat.mod_eq_of_lt (hle.trans_lt hlt)
  unfold Room at hroom
  unfold doAlloc usedAfter
  split_ifs at hroom ⊢ with hing
  · have hsize := hneed (n := TMP_BUF_SIZE) (by omega) (by decide)
    obtain ⟨hres, hpos⟩ := reserved_tmpAlloc h (8 + size) (by omega)
    rw [hsize] at hres hpos
    obtain ⟨mem, hmem, hinv, hframe⟩ := hres.handOut size.toNat_lt
    refine ⟨_, _, ?_, hinv, rfl, rfl, hpos, by simp [hing], hframe⟩
    simp only [hmem]
    rfl
  · cases ans with
    | none => exact ⟨none, s, rfl, h, rfl, rfl, rfl, by simp [hing], fun _ _ _ _ => rfl⟩
    | some bytes =>
      have hroom' : SIZEOF_SIZE_T + size.toNat < UInt64.size := by simpa using hroom
      have hres := reserved_realMalloc h (8 + size) bytes
      rw [hneed le_rfl hroom'] at hres
      obtain ⟨mem, hmem, hinv, hframe⟩ := hres.handOut size.toNat_lt
      refine ⟨_, _, ?_, hinv, rfl, rfl, rfl, by simp, hframe⟩
      simp only [realMalloc, hneed le_rfl hroom', hmem]
      rfl

/-! ### Calls -/

/-- The call can be served as it should be. -/
def Ready (s : State) (c : Call) : Prop :=
  if s.initStatus = .initIng then s.tmpBufPos.toNat + (SIZEOF_SIZE_T + c.bytes) ≤ TMP_BUF_SIZE else c.Fits

/-- The call was served as it should be. -/
structure Served (s : State) (c : Call) (r : Option Ptr) (s' : State) : Prop where
  /-- It returned that. -/
  eq : serve s c = some (r, s')
  /-- What is returned is as it should be. -/
  sound : Entry.Sound ⟨s, c, r, handOut s' c.bytes r⟩
  /-- The invariant holds. -/
  inv : Inv (handOut s' c.bytes r)
  /-- The phase is the same. -/
  initStatus : s'.initStatus = s.initStatus
  /-- So much of the buffer is used. -/
  used : s'.tmpBufPos.toNat = usedAfter s c.bytes

theorem inv_of_handOut {n : ℕ} {r : Option Ptr} (h : Inv (handOut s' n r)) {b : Range}
    (hb : b ∈ s'.returned) : BlockAt s'.mem s'.tmpBufPos.toNat b := by
  cases r with
  | none => exact h.block b hb
  | some p => exact h.block b (List.mem_append_left _ hb)

theorem served_malloc (h : Inv s) {size : UInt64} {ans : Answer} (hready : Ready s (.malloc size ans)) :
    ∃ r s', Served s (.malloc size ans) r s' := by
  obtain ⟨r, s', heq, hinv, -, hst, hpos, -, -⟩ := doAlloc_spec h hready
  exact ⟨r, s', heq, ⟨hinv.valid, (by rintro _ _ _ _ ⟨⟩), (by rintro _ _ _ _ _ ⟨⟩)⟩, hinv,
    hst, hpos⟩

theorem served_realloc (h : Inv s) {which : ℕ} {size : UInt64} {ans : Answer}
    (hready : Ready s (.realloc which size ans)) : ∃ r s', Served s (.realloc which size ans) r s' := by
  obtain ⟨r, s₁, heq, hinv, hret, hst, hpos, -, hframe⟩ := doAlloc_spec h hready
  -- nothing is copied
  have hplain : (s.returned[which]? = none ∨ r = none) →
      ∃ r s', Served s (.realloc which size ans) r s' := by
    intro hnone
    refine ⟨r, s₁, ?_, ⟨hinv.valid, (by rintro _ _ _ _ ⟨⟩), ?_⟩, hinv, hst, hpos⟩
    · rw [serve, realloc, heq]
      rcases hnone with hb | rfl
      · simp [hb]
      · cases s.returned[which]? <;> rfl
    · rintro which' size' ans' b p ⟨⟩ hb hr
      rcases hnone with hb' | hr'
      · cases hb'.symm.trans hb
      · cases hr'.symm.trans hr
  cases hb : s.returned[which]? with
  | none => exact hplain (Or.inl hb)
  | some b =>
    cases r with
    | none => exact hplain (Or.inr rfl)
    | some p =>
      -- the old block has its size in front of it, and the new one is as long as what is copied
      have hmem := List.mem_of_getElem? hb
      have hblk := inv_of_handOut hinv (hret ▸ hmem)
      have hlen : fetchSize s₁.mem (some b.ptr) = b.len := hblk.sized
      have hholds : s₁.mem.Holds b.ptr (min b.len size.toNat) := by
        have := hblk.inside
        simp only [Memory.Holds] at this ⊢
        omega
      obtain ⟨mem, hwrite, hinv'⟩ := hinv.write (b := ⟨p, size.toNat⟩) p (min b.len size.toNat)
        (fun i => s₁.mem.byte b.ptr.region (b.ptr.off + i)) (List.mem_append_right _ List.mem_cons_self)
        rfl le_rfl (by simp only; omega)
      refine ⟨some p, { s₁ with mem := mem }, ?_, ⟨hinv'.valid, (by rintro _ _ _ _ ⟨⟩), ?_⟩, hinv',
        hst, hpos⟩
      · rw [serve, realloc, heq, hb]
        simp only [Option.map_some, Option.bind_eq_bind, Option.bind_some, hlen, if_pos hholds]
        rw [show s₁.mem.write p (min b.len size.toNat) _ = some mem from hwrite]
        rfl
      · rintro which' size' ans' b' p' ⟨⟩ hb' ⟨⟩ i hi
        obtain rfl := Option.some_inj.mp (hb.symm.trans hb')
        have hbyte : mem.byte p.region (p.off + i) = s₁.mem.byte b.ptr.region (b.ptr.off + i) :=
          Memory.byte_write hwrite hi
        exact hbyte.trans (hframe b hmem i (hi.trans_le (min_le_left _ _)))

/-- `calloc` of no bytes, where the real `malloc` returns `NULL`: `memset` has nothing to clear. -/
theorem served_calloc_null (h : Inv s) {num size : UInt64} (hing : s.initStatus ≠ .initIng)
    (hzero : num * size = 0) : ∃ r s', Served s (.calloc num size none) r s' := by
  obtain ⟨r, s₁, heq, hinv, -, hst, hpos, hnone, -⟩ :=
    doAlloc_spec h (show Room s (num * size).toNat none by simp [Room, hing])
  obtain rfl := hnone.mpr ⟨hing, rfl⟩
  refine ⟨none, s₁, ?_, ⟨hinv.valid, ?_, ?_⟩, hinv, hst,
    by rw [hpos, usedAfter, usedAfter, if_neg hing, if_neg hing]⟩
  · rw [serve, calloc, heq]
    simp [hzero]
  · rintro _ _ _ _ - ⟨⟩
  · rintro _ _ _ _ _ ⟨⟩

/-- `calloc` of the size that is meant, where a block is returned. -/
theorem served_calloc_room (h : Inv s) {num size : UInt64} {ans : Answer}
    (hsize : (num * size).toNat = num.toNat * size.toNat) (hroom : Room s (num * size).toNat ans)
    (hnull : ¬ (s.initStatus ≠ .initIng ∧ ans = none)) : ∃ r s', Served s (.calloc num size ans) r s' := by
  obtain ⟨r, s₁, heq, hinv, -, hst, hpos, hnone, -⟩ := doAlloc_spec h hroom
  rw [hsize] at hinv hpos
  cases r with
  | none => exact absurd (hnone.mp rfl) hnull
  | some p =>
    obtain ⟨mem, hwrite, hinv'⟩ := hinv.write (b := ⟨p, num.toNat * size.toNat⟩) p
      (num.toNat * size.toNat) (fun _ => 0) (List.mem_append_right _ List.mem_cons_self)
      rfl le_rfl le_rfl
    refine ⟨some p, { s₁ with mem := mem }, ?_, ⟨hinv'.valid, ?_, ?_⟩, hinv', hst, hpos⟩
    · rw [serve, calloc, heq]
      simp only [Option.bind_eq_bind, Option.bind_some, hsize]
      rw [show s₁.mem.write p (num.toNat * size.toNat) _ = some mem from hwrite]
      rfl
    · rintro num' size' ans' p' ⟨⟩ ⟨⟩ i hi
      exact Memory.byte_write hwrite hi
    · rintro _ _ _ _ _ ⟨⟩

theorem served_calloc (h : Inv s) {num size : UInt64} {ans : Answer}
    (hready : Ready s (.calloc num size ans)) : ∃ r s', Served s (.calloc num size ans) r s' := by
  have hmul : (num * size).toNat = num.toNat * size.toNat % UInt64.size := UInt64.toNat_mul num size
  have hlt : ∀ {n}, SIZEOF_SIZE_T + num.toNat * size.toNat ≤ n → n < UInt64.size →
      (num * size).toNat = num.toNat * size.toNat := by
    intro n hle hn
    rw [hmul]
    exact Nat.mod_eq_of_lt (by omega)
  -- the size that `do_alloc` is asked for is the size that is meant, or `NULL` is returned
  by_cases hnull : s.initStatus ≠ .initIng ∧ ans = none
  · obtain ⟨hing, rfl⟩ := hnull
    simp only [Ready, if_neg hing, Call.Fits, Option.isNone_none, if_true] at hready
    exact served_calloc_null h hing (UInt64.toNat_inj.mp (hmul.trans hready))
  · unfold Ready at hready
    split_ifs at hready with hing
    · have hsize := hlt (n := TMP_BUF_SIZE) (by simp only [Call.bytes] at hready; omega) (by decide)
      refine served_calloc_room h hsize ?_ hnull
      rw [Room, if_pos hing]
      exact hsize ▸ hready
    · have hans : ans.isNone = false := by
        cases ans
        · exact absurd ⟨hing, rfl⟩ hnull
        · rfl
      simp only [Call.Fits, hans, Bool.false_eq_true, if_false] at hready
      have hsize := hlt le_rfl hready
      refine served_calloc_room h hsize ?_ hnull
      rw [Room, if_neg hing]
      exact Or.inr (hsize ▸ hready)

/-- **One call** is served as it should be when it is ready. -/
theorem served_of_ready (h : Inv s) {c : Call} (hready : Ready s c) : ∃ r s', Served s c r s' := by
  cases c with
  | malloc size ans => exact served_malloc h hready
  | realloc which size ans => exact served_realloc h hready
  | calloc num size ans => exact served_calloc h hready

/-! ### Calls that are not ready -/

/-- The size that `do_alloc` is asked for, and the answer that it may get. -/
def Call.asked : Call → UInt64 × Answer
  | .malloc size ans => (size, ans)
  | .realloc _ size ans => (size, ans)
  | .calloc num size ans => (num * size, ans)

/-- What `do_alloc` returns, be there room or not. -/
theorem doAlloc_cases {size : UInt64} {ans : Answer} {r : Option Ptr} (h : doAlloc s size ans = some (r, s')) :
    s'.returned = s.returned ∧
      (s.initStatus = .initIng ∧ r = some ⟨0, s.tmpBufPos.toNat + SIZEOF_SIZE_T⟩ ∧
          s'.mem.sizes = s.mem.sizes ∨
        s.initStatus ≠ .initIng ∧ ans = none ∧ r = none ∨
        s.initStatus ≠ .initIng ∧ ans.isNone = false ∧ r = some ⟨s.mem.sizes.length, SIZEOF_SIZE_T⟩ ∧
          s'.mem.sizes = s.mem.sizes ++ [(8 + size).toNat]) := by
  unfold doAlloc at h
  split_ifs at h with hing
  · obtain ⟨mem, hmem, h⟩ := Option.bind_eq_some_iff.mp h
    cases h
    exact ⟨rfl, Or.inl ⟨hing, rfl, Memory.sizes_write hmem⟩⟩
  · cases ans with
    | none =>
      cases h
      exact ⟨rfl, Or.inr (Or.inl ⟨hing, rfl, rfl⟩)⟩
    | some bytes =>
      obtain ⟨mem, hmem, h⟩ := Option.bind_eq_some_iff.mp h
      cases h
      refine ⟨rfl, Or.inr (Or.inr ⟨hing, rfl, ?_, Memory.sizes_write hmem⟩)⟩
      simp [Ptr.add]

/-- What is returned is what `do_alloc` returned. -/
theorem serve_cases {c : Call} {r : Option Ptr} (h : serve s c = some (r, s')) :
    ∃ s₁, doAlloc s c.asked.1 c.asked.2 = some (r, s₁) ∧ s'.mem.sizes = s₁.mem.sizes ∧
      s'.returned = s₁.returned ∧
      ∀ num size ans, c = .calloc num size ans → r = none → num * size = 0 := by
  cases c with
  | malloc size ans => exact ⟨s', h, rfl, rfl, by rintro _ _ _ ⟨⟩⟩
  | realloc which size ans =>
    obtain ⟨⟨r₁, s₁⟩, heq, h⟩ := Option.bind_eq_some_iff.mp h
    refine ⟨s₁, ?_⟩
    cases hb : s.returned[which]? with
    | none =>
      rw [hb] at h
      cases h
      exact ⟨heq, rfl, rfl, by rintro _ _ _ ⟨⟩⟩
    | some b =>
      rw [hb] at h
      cases r₁ with
      | none =>
        cases h
        exact ⟨heq, rfl, rfl, by rintro _ _ _ ⟨⟩⟩
      | some p =>
        simp only [Option.map_some] at h
        split_ifs at h
        obtain ⟨mem, hmem, h⟩ := Option.bind_eq_some_iff.mp h
        cases h
        exact ⟨heq, Memory.sizes_write hmem, rfl, by rintro _ _ _ ⟨⟩⟩
  | calloc num size ans =>
    obtain ⟨⟨r₁, s₁⟩, heq, h⟩ := Option.bind_eq_some_iff.mp h
    refine ⟨s₁, ?_⟩
    cases r₁ with
    | none =>
      simp only at h
      split_ifs at h with hzero
      cases h
      refine ⟨heq, rfl, rfl, ?_⟩
      rintro _ _ _ ⟨⟩ -
      exact hzero
    | some p =>
      obtain ⟨mem, hmem, h⟩ := Option.bind_eq_some_iff.mp h
      cases h
      refine ⟨heq, Memory.sizes_write hmem, rfl, ?_⟩
      rintro _ _ _ - ⟨⟩

theorem fits_of_none {c : Call} (hans : c.asked.2 = none)
    (hzero : ∀ num size ans, c = .calloc num size ans → num * size = 0) : c.Fits := by
  cases c with
  | malloc size ans => exact Or.inl hans
  | realloc which size ans => exact Or.inl hans
  | calloc num size ans =>
    obtain rfl : ans = none := hans
    have hmul := congrArg UInt64.toNat (hzero num size none rfl)
    rw [UInt64.toNat_mul] at hmul
    simp only [Call.Fits, Option.isNone_none, if_true]
    exact hmul

theorem fits_of_lt {c : Call} (hans : c.asked.2.isNone = false)
    (hlt : SIZEOF_SIZE_T + c.bytes < UInt64.size) : c.Fits := by
  cases c with
  | malloc size ans => exact Or.inr hlt
  | realloc which size ans => exact Or.inr hlt
  | calloc num size ans =>
    simp only [Call.Fits, show ans.isNone = false from hans, Bool.false_eq_true, if_false]
    exact hlt

/-- A call whose block is inside its region was ready. -/
theorem ready_of_valid (h : Inv s) {c : Call} {r : Option Ptr} (heq : serve s c = some (r, s'))
    (hv : Valid (handOut s' c.bytes r)) : Ready s c := by
  obtain ⟨s₁, hs₁, hsizes, -, hzero⟩ := serve_cases heq
  have hinside : ∀ p, r = some p → s'.mem.Holds p c.bytes := by
    rintro p rfl
    exact hv.inside ⟨p, c.bytes⟩ (List.mem_append_right _ List.mem_cons_self)
  unfold Ready
  obtain ⟨-, ⟨hing, hr, hsz⟩ | ⟨hing, hans, hr⟩ | ⟨hing, hans, hr, hsz⟩⟩ := doAlloc_cases hs₁
  · rw [if_pos hing]
    have hin := hinside _ hr
    rw [Memory.Holds, hsizes, hsz] at hin
    have hin' := (holds_buffer h ⟨0, s.tmpBufPos.toNat + SIZEOF_SIZE_T⟩ rfl).mp hin
    simp only at hin'
    omega
  · rw [if_neg hing]
    exact fits_of_none hans fun num size ans hc => hzero num size ans hc hr
  · rw [if_neg hing]
    have hin := hinside _ hr
    rw [Memory.Holds, hsizes, hsz] at hin
    simp only [List.getD_eq_getElem?_getD, List.getElem?_concat_length, Option.getD_some] at hin
    exact fits_of_lt hans (hin.trans_lt (UInt64.toNat_lt _))

/-! ### Processes -/

/-- A request is served as it should be exactly when it is ready. -/
theorem request_sound_iff (h : Inv s) (req : Request) :
    (∃ e, request s req = some e ∧ e.Sound) ↔ Ready s req.call := by
  obtain ⟨s₁, hs₁, hinv, hst, hpos⟩ := inv_stores h req.stores
  have hready : Ready s₁ req.call ↔ Ready s req.call := by rw [Ready, Ready, hst, hpos]
  rw [← hready, request, hs₁, Option.bind_eq_bind, Option.bind_some]
  constructor
  · rintro ⟨e, he, hsound⟩
    obtain ⟨⟨r, s₂⟩, heq, he⟩ := Option.bind_eq_some_iff.mp he
    cases he
    exact ready_of_valid hinv heq hsound.valid
  · intro hr
    obtain ⟨r, s₂, hserved⟩ := served_of_ready hinv hr
    exact ⟨_, by rw [hserved.eq]; rfl, hserved.sound⟩

/-- What holds after a request that is ready. -/
theorem request_inv (h : Inv s) {req : Request} {e : Entry} (he : request s req = some e) (hs : e.Sound) :
    Inv e.after ∧ e.after.initStatus = s.initStatus ∧
      e.after.tmpBufPos.toNat = usedAfter s req.call.bytes := by
  obtain ⟨s₁, hs₁, hinv, hst, hpos⟩ := inv_stores h req.stores
  rw [request, hs₁, Option.bind_eq_bind, Option.bind_some] at he
  obtain ⟨⟨r, s₂⟩, heq, he⟩ := Option.bind_eq_some_iff.mp he
  cases he
  obtain ⟨r', s₂', hserved⟩ := served_of_ready hinv (ready_of_valid hinv heq hs.valid)
  obtain ⟨rfl, rfl⟩ := Prod.mk.injEq .. ▸ Option.some_inj.mp (heq.symm.trans hserved.eq)
  have hst' : (handOut s₂ req.call.bytes r).initStatus = s₂.initStatus := by cases r <;> rfl
  have hpos' : (handOut s₂ req.call.bytes r).tmpBufPos = s₂.tmpBufPos := by cases r <;> rfl
  refine ⟨hserved.inv, hst'.trans (hserved.initStatus.trans hst), ?_⟩
  rw [hpos', hserved.used, usedAfter, usedAfter, hst, hpos]

/-- Requests are served as they should be. -/
def AllSound (s : State) (reqs : List Request) : Prop :=
  ∃ es s', requests s reqs = some (es, s') ∧ ∀ e ∈ es, e.Sound

theorem allSound_cons {req : Request} {reqs : List Request} :
    AllSound s (req :: reqs) ↔ ∃ e, request s req = some e ∧ e.Sound ∧ AllSound e.after reqs := by
  constructor
  · rintro ⟨es, s', h, hsound⟩
    obtain ⟨e, he, h⟩ := Option.bind_eq_some_iff.mp h
    obtain ⟨⟨es', s₂⟩, hes', h⟩ := Option.bind_eq_some_iff.mp h
    cases h
    exact ⟨e, he, hsound e List.mem_cons_self, es', _, hes',
      fun e' he' => hsound e' (List.mem_cons_of_mem _ he')⟩
  · rintro ⟨e, he, hsound, es, s', hes, hes'⟩
    refine ⟨e :: es, s', ?_, List.forall_mem_cons.mpr ⟨hsound, hes'⟩⟩
    rw [requests, he, Option.bind_eq_bind, Option.bind_some, hes]
    rfl

/-- The early requests fit the buffer one after the other. -/
theorem allSound_ing_iff (h : Inv s) (hing : s.initStatus = .initIng) (reqs : List Request) :
    AllSound s reqs ↔
      s.tmpBufPos.toNat + (reqs.map fun req => SIZEOF_SIZE_T + req.call.bytes).sum ≤ TMP_BUF_SIZE := by
  induction reqs generalizing s with
  | nil => simpa [AllSound, requests] using h.pos
  | cons req reqs ih =>
    rw [allSound_cons, List.map_cons, List.sum_cons, ← Nat.add_assoc]
    have hiff := request_sound_iff h req
    rw [Ready, if_pos hing] at hiff
    constructor
    · rintro ⟨e, he, hsound, hrest⟩
      obtain ⟨hinv, hst, hpos⟩ := request_inv h he hsound
      rw [usedAfter, if_pos hing] at hpos
      rwa [ih hinv (hst.trans hing), hpos] at hrest
    · intro hle
      obtain ⟨e, he, hsound⟩ := hiff.mpr (by omega)
      obtain ⟨hinv, hst, hpos⟩ := request_inv h he hsound
      rw [usedAfter, if_pos hing] at hpos
      exact ⟨e, he, hsound, (ih hinv (hst.trans hing)).mpr (by rwa [hpos])⟩

/-- The later calls fit one by one. -/
theorem allSound_done_iff (h : Inv s) (hing : s.initStatus ≠ .initIng) (reqs : List Request) :
    AllSound s reqs ↔ ∀ req ∈ reqs, req.call.Fits := by
  induction reqs generalizing s with
  | nil => simp [AllSound, requests]
  | cons req reqs ih =>
    rw [allSound_cons, List.forall_mem_cons]
    have hiff := request_sound_iff h req
    rw [Ready, if_neg hing] at hiff
    constructor
    · rintro ⟨e, he, hsound, hrest⟩
      obtain ⟨hinv, hst, -⟩ := request_inv h he hsound
      exact ⟨hiff.mp ⟨e, he, hsound⟩, (ih hinv (hst ▸ hing)).mp hrest⟩
    · rintro ⟨hfit, hrest⟩
      obtain ⟨e, he, hsound⟩ := hiff.mpr hfit
      obtain ⟨hinv, hst, -⟩ := request_inv h he hsound
      exact ⟨e, he, hsound, (ih hinv (hst ▸ hing)).mpr hrest⟩

/-- The invariant after requests that are served as they should be. -/
theorem requests_inv (h : Inv s) {reqs : List Request} {es : List Entry} (hr : requests s reqs = some (es, s'))
    (hs : ∀ e ∈ es, e.Sound) : Inv s' := by
  induction reqs generalizing s es with
  | nil =>
    cases hr
    exact h
  | cons req reqs ih =>
    obtain ⟨e, he, hr⟩ := Option.bind_eq_some_iff.mp hr
    obtain ⟨⟨es', s₂⟩, hes', hr⟩ := Option.bind_eq_some_iff.mp hr
    cases hr
    exact ih (request_inv h he (hs e List.mem_cons_self)).1 hes' fun e' he' => hs e' (List.mem_cons_of_mem _ he')

/-- A process that makes a call serves the early requests and then its own. -/
theorem sound_cons_iff {nested reqs : List Request} {req : Request} :
    Sound nested (req :: reqs) ↔ ∃ es s, requests { init with initStatus := .initIng } nested = some (es, s) ∧
      (∀ e ∈ es, e.Sound) ∧ AllSound { s with initStatus := .initDone } (req :: reqs) := by
  constructor
  · rintro ⟨es, s, h, hsound⟩
    rw [process, if_pos (show init.initStatus = .initNot from rfl)] at h
    obtain ⟨⟨es₁, s₁⟩, h₁, h⟩ := Option.bind_eq_some_iff.mp h
    obtain ⟨⟨es₂, s₂⟩, h₂, h₁⟩ := Option.bind_eq_some_iff.mp h₁
    cases h₁
    obtain ⟨⟨es₃, s₃⟩, h₃, h⟩ := Option.bind_eq_some_iff.mp h
    cases h
    exact ⟨es₁, s₂, h₂, fun e he => hsound e (List.mem_append_left _ he), es₃, _, h₃,
      fun e he => hsound e (List.mem_append_right _ he)⟩
  · rintro ⟨es, s, h, hsound, es', s', h', hsound'⟩
    refine ⟨es ++ es', s', ?_, fun e he => (List.mem_append.mp he).elim (hsound e) (hsound' e)⟩
    rw [process, if_pos (show init.initStatus = .initNot from rfl), doInit, h]
    simp only [Option.bind_eq_bind, Option.bind_some, Option.pure_def, h']

/-- **The interposed allocator**: in a process every call returns, and every block is as it should
be, exactly when the early requests fit the buffer together with their headers and the later ones
fit a `size_t` with theirs. -/
theorem sound_iff_fits (nested reqs : List Request) : Sound nested reqs ↔ Fits nested reqs := by
  have hing := inv_init.setStatus .initIng
  have hearly := allSound_ing_iff hing rfl nested
  rw [show ({ init with initStatus := InitStatus.initIng } : State).tmpBufPos.toNat = 0 from rfl,
    Nat.zero_add] at hearly
  cases reqs with
  | nil => simp [Sound, process, Fits]
  | cons req reqs =>
    have hlate : ∀ {es s}, requests { init with initStatus := .initIng } nested = some (es, s) →
        (∀ e ∈ es, e.Sound) → (AllSound { s with initStatus := .initDone } (req :: reqs) ↔
          ∀ req' ∈ req :: reqs, req'.call.Fits) := fun h hsound =>
      allSound_done_iff ((requests_inv hing h hsound).setStatus .initDone) (by simp) _
    rw [sound_cons_iff, Fits, ← hearly]
    constructor
    · rintro ⟨es, s, h, hsound, hrest⟩
      exact ⟨fun _ => ⟨es, s, h, hsound⟩, (hlate h hsound).mp hrest⟩
    · rintro ⟨hnested, hrest⟩
      obtain ⟨es, s, h, hsound⟩ := hnested (List.cons_ne_nil _ _)
      exact ⟨es, s, h, hsound, (hlate h hsound).mpr hrest⟩

/-- `calloc(2^32, 2^32)` after initialisation: the product is zero, and the block that is returned
has no byte. -/
theorem not_sound_calloc : ¬ ∀ nested reqs, Sound nested reqs := by
  intro h
  obtain ⟨es, s, hes, hsound⟩ := h [] [⟨[], .calloc 4294967296 4294967296 (some fun _ => 1)⟩]
  cases hes
  have hin := (hsound _ List.mem_cons_self).valid.inside ⟨⟨1, 8⟩, 18446744073709551616⟩
    (List.mem_singleton.mpr rfl)
  exact absurd hin (by decide)

end Hijack

end Schnauzer
