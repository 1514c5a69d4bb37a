import Schnauzer.Lib.CString
import Schnauzer.Scs.ScScheduler
import Mathlib.Data.Nat.ModEq
import Mathlib.Data.UInt

/-!
# The stores of the C library

The hooks of the functions of the C library that write log `OP_ST` events before the function runs.
`runHook` is a hook that no other thread interrupts, and `loggedStores` the bytes of the `OP_ST` events
that it leaves in the log; `Op.stores` is what the C function itself stores.

## What is proved

* `runHook_before` — the events of a hook are its accesses, one by one.
* `storesLogged_iff` — **the bytes logged are the bytes written** for `memcpy`, `memmove` and `memset`,
  for `strncpy` unless the string is longer than the bound, and for `strncat` when the bound is the length
  of the string and its null byte; for `strcpy` and `strcat` never.
* `nul_not_logged` — the null byte of a `strcpy` is in no event.
-/

namespace Schnauzer

open ScScheduler

/-- The bytes of the memory. -/
abbrev Mem := Addr → UInt8

/-- `strlen`, for a string that ends somewhere in memory. -/
def Mem.strlen (mem : Mem) (str : Addr) : ℕ := CString.strnlen ptrAdd mem str UInt64.size

/-- A null byte ends the string. -/
def Mem.IsString (mem : Mem) (str : Addr) : Prop := mem.strlen str < UInt64.size

namespace Op

/-- What a function of the C library stores, if it is one that writes; `c` is the byte that `memset`
is passed. -/
def stores (mem : Mem) (c : UInt8) : Op → Option (List (Addr × UInt8))
  | .memcpy dest src n | .memmove dest src n => some (CString.copy ptrAdd mem dest src n)
  | .memset str n => some (CString.fill ptrAdd str c n)
  | .strcat dest src => some (CString.strcat ptrAdd mem UInt64.size dest src)
  | .strncat dest src n => some (CString.strncat ptrAdd mem UInt64.size dest src n)
  | .strcpy dest src => some (CString.strcpy ptrAdd mem UInt64.size dest src)
  | .strncpy dest src n => some (CString.strncpy ptrAdd mem dest src n)
  | _ => none

/-- The arguments that C allows: a bound is a `size_t`, and what is read as a string is one. -/
def Args (mem : Mem) : Op → Prop
  | .memcpy _ _ n | .memmove _ _ n | .memset _ n | .strncpy _ _ n => n < UInt64.size
  | .strcat dest src => mem.IsString dest ∧ mem.IsString src
  | .strncat dest _ n => mem.IsString dest ∧ n < UInt64.size
  | .strcpy _ src => mem.IsString src
  | _ => True

/-- When the hook logs what the function writes. -/
def StoresLogged (mem : Mem) : Op → Prop
  | .strcat _ _ | .strcpy _ _ => False
  | .strncat _ src n => n = mem.strlen src + 1
  | .strncpy _ src n => mem.strlen src ≤ n
  | _ => True

/-- Where a function that writes starts to write. -/
def start (mem : Mem) : Op → Addr
  | .memcpy dest _ _ | .memmove dest _ _ | .memset dest _ | .strcpy dest _ | .strncpy dest _ _ => dest
  | .strcat dest _ | .strncat dest _ _ => ptrAdd dest (mem.strlen dest)
  | _ => 0

/-- How many bytes its hook logs. -/
def lenLogged (mem : Mem) : Op → ℕ
  | .memcpy _ _ n | .memmove _ _ n | .memset _ n | .strncat _ _ n => n
  | .strcat _ src | .strcpy _ src => mem.strlen src
  | .strncpy _ src n => if mem.strlen src > n then mem.strlen src else n
  | _ => 0

/-- How many bytes it writes. -/
def lenWritten (mem : Mem) : Op → ℕ
  | .memcpy _ _ n | .memmove _ _ n | .memset _ n | .strncpy _ _ n => n
  | .strcat _ src | .strcpy _ src => mem.strlen src + 1
  | .strncat _ src n => CString.strnlen ptrAdd mem src n + 1
  | _ => 0

/-- The call of a function of the C library, with nothing on the stack. -/
def libcCall (mem : Mem) (inst : ℕ) (op : Op) : Call := ⟨op, inst, fun _ => false, mem.strlen⟩

end Op

/-! ### A hook that runs alone -/

namespace Logger

/-- The stores that a thread has yet to make. -/
def storeAll (st : LogState) : List (ℕ × Event) → LogState
  | [] => st
  | (ts, evt) :: pend => storeAll { st with events := Function.update st.events ts (some evt) } pend

/-- The calls of a hook, one after the other, or `none` when an `assert` fails. -/
def runHook (cfg : LogConfig) (isOnStack : Addr → Bool) (inst tid : ℕ) :
    List Stmt → LogState → LogLocal → Option (LogState × LogLocal)
  | [], st, l => some (st, l)
  | .scs _ :: todo, st, l => runHook cfg isOnStack inst tid todo st l
  | .log lc :: todo, st, l =>
    let r := exec cfg isOnStack inst tid st l lc
    if r.1.aborted = none then
      runHook cfg isOnStack inst tid todo (storeAll r.1 r.2.pend) { r.2 with pend := [] }
    else none

end Logger

/-- The bytes of the `OP_ST` events between two sizes of the log, as the detector expands them. -/
def loggedStores (st st' : LogState) : Set Addr :=
  {a | ∃ n, st.logSz ≤ n ∧ n < st'.logSz ∧ ∃ e, st'.events n = some e ∧ e.opTy = .st ∧
    ∃ k < e.varLen, (e.expandArrayAccessEvent k).varAddr = a}

namespace ScScheduler

/-- The event of an access. -/
def Access.event (inst tid : ℕ) (x : Access) (ts : ℕ) : Event :=
  .makeArrayAccessEvent inst ts tid x.ty x.addr x.len

/-- The events in the slots from `n` on are those of the accesses. -/
def Access.Filled (inst tid : ℕ) (xs : List Access) (n : ℕ) (st : LogState) : Prop :=
  ∀ i (h : i < xs.length), st.events (n + i) = some (xs[i].event inst tid (n + i))

end ScScheduler

open Logger

variable {cfg : LogConfig} {inst tid : ℕ} {st st' : LogState} {l l' : LogLocal} {xs : List Access}
  {x : Access} {rest : List Stmt} {n : ℕ} {mem : Mem} {op : Op} {c : UInt8}

/-! ### The events of a hook -/

theorem logEvent_single {mk : ℕ → Event} (hin : inBatch l = false)
    (hab : (logEvent mk st l).1.aborted = none) :
    logEvent mk st l = (fetchAdd 1 st, { l with drawn := [st.logSz], pend := [(st.logSz, mk st.logSz)] }) := by
  unfold logEvent at hab ⊢
  simp only [hin, Bool.false_eq_true, if_false] at hab ⊢
  split_ifs at hab ⊢
  · rfl
  · cases hab

/-- The slot is below the bound of the log. -/
theorem logEvent_lt {mk : ℕ → Event} (hin : inBatch l = false)
    (hab : (logEvent mk st l).1.aborted = none) : st.logSz < MAX_NR_EVENTS := by
  unfold logEvent at hab
  simp only [hin, Bool.false_eq_true, if_false] at hab
  split_ifs at hab with hlt
  · exact hlt
  · cases hab

theorem logEvent_batched {mk : ℕ → Event} (hin : inBatch l = true)
    (hab : (logEvent mk st l).1.aborted = none) :
    logEvent mk st l = (st, { l with
      batchPos := l.batchPos + 1
      drawn := l.drawn ++ [l.batchId + l.batchPos]
      pend := [(l.batchId + l.batchPos, mk (l.batchId + l.batchPos))] }) := by
  unfold logEvent at hab ⊢
  simp only [hin, if_true] at hab ⊢
  split_ifs at hab ⊢
  · rfl
  · cases hab
  · cases hab

/-- The first access of a hook. -/
theorem runHook_access (hen : cfg.enable = true)
    (h : runHook cfg (fun _ => false) inst tid (x.log :: rest) st l = some (st', l')) :
    (logEvent (x.event inst tid) st l).1.aborted = none ∧
      runHook cfg (fun _ => false) inst tid rest
        (storeAll (logEvent (x.event inst tid) st l).1 (logEvent (x.event inst tid) st l).2.pend)
        { (logEvent (x.event inst tid) st l).2 with pend := [] } = some (st', l') := by
  simp only [Access.log, runHook, exec, hen, not_true_eq_false, Bool.false_eq_true, or_self,
    if_false] at h
  split_ifs at h with hab
  exact ⟨hab, h⟩

/-- The slots of a list of accesses, from the first on. -/
theorem ScScheduler.Access.Filled.cons (hx : st.events n = some (x.event inst tid n))
    (h : Access.Filled inst tid xs (n + 1) st) : Access.Filled inst tid (x :: xs) n st := by
  intro i hi
  cases i with
  | zero => exact hx
  | succ i =>
    have hi' := h i (Nat.lt_of_succ_lt_succ hi)
    rw [Nat.add_assoc, Nat.add_comm 1] at hi'
    exact hi'

/-- **The accesses of a batch** fill it, up to its end. -/
theorem runHook_batched (hen : cfg.enable = true) (hin : inBatch l = true) (hpend : l.pend = [])
    (h : runHook cfg (fun _ => false) inst tid (xs.map Access.log ++ [.log .endBatch]) st l =
      some (st', l')) :
    l.batchPos + xs.length = l.batchSz ∧ st'.logSz = st.logSz ∧
      Access.Filled inst tid xs (l.batchId + l.batchPos) st' ∧
      ∀ n < l.batchId + l.batchPos, st'.events n = st.events n := by
  induction xs generalizing st l with
  | nil =>
    simp only [List.map_nil, List.nil_append, runHook, exec, endBatch, hen, not_true_eq_false,
      if_false] at h
    split_ifs at h with hpos _ hab
    · rw [hpend] at h
      cases h
      exact ⟨hpos, rfl, fun i hi => absurd hi (Nat.not_lt_zero i), fun _ _ => rfl⟩
    · cases hab
  | cons x xs ih =>
    obtain ⟨hab, hrun⟩ := runHook_access hen h
    rw [logEvent_batched hin hab] at hrun
    obtain ⟨hlen, hsz, hfilled, hframe⟩ := ih (by exact hin) rfl hrun
    refine ⟨?_, hsz, ?_, ?_⟩
    · rw [List.length_cons, ← hlen]
      dsimp only
      omega
    · have hhead := hframe (l.batchId + l.batchPos) (Nat.lt_succ_self _)
      exact .cons (hhead.trans (Function.update_self ..)) hfilled
    · intro n hn
      have hother := hframe n (Nat.lt_succ_of_lt hn)
      exact hother.trans (Function.update_of_ne hn.ne ..)

/-- **A hook** that opens a batch for its accesses. -/
theorem runHook_logBatch {batch : List Addr} (hlibc : cfg.libc = true) (hlen : batch.length = xs.length)
    (hgt : 1 < xs.length) (hnone : noBatch l = true) (hpend : l.pend = [])
    (h : runHook cfg (fun _ => false) inst tid (logBatch cfg batch xs) st l = some (st', l')) :
    st'.logSz = st.logSz + xs.length ∧ Access.Filled inst tid xs st.logSz st' := by
  have hen : cfg.enable = true := (Bool.and_eq_true_iff.mp hlibc).1
  have hnr : nrValidAddr (fun _ => false) batch = xs.length := by
    simp [nrValidAddr, hlen]
  simp only [logBatch, hlibc, not_true_eq_false, if_false, runHook, exec, startBatchFor, hen, hnone,
    if_true, hnr, if_pos hgt] at h
  split_ifs at h with hab
  have hopen : storeAll (openBatch xs.length st l).1 (openBatch xs.length st l).2.pend =
      fetchAdd xs.length st := by
    simp [openBatch, hpend, storeAll]
  rw [hopen] at h
  -- a log of this size is full, and the first access of the batch fails
  have hne : st.logSz ≠ MAX_NUMBER := by
    intro hmax
    obtain ⟨x, ys, rfl⟩ := List.exists_cons_of_length_pos (Nat.lt_of_succ_lt hgt)
    obtain ⟨hfull, -⟩ := runHook_access hen h
    have hlt : st.logSz + (x :: ys).length < MAX_NR_EVENTS :=
      logEvent_lt (decide_eq_false (not_not_intro hmax)) hfull
    have hle : MAX_NR_EVENTS ≤ MAX_NUMBER := by decide
    omega
  obtain ⟨-, hsz, hfilled, -⟩ := runHook_batched hen (decide_eq_true hne) rfl h
  exact ⟨hsz, hfilled⟩

/-- A hook that logs one access in a slot of its own. -/
theorem runHook_single (hen : cfg.enable = true) (hin : inBatch l = false)
    (h : runHook cfg (fun _ => false) inst tid [x.log] st l = some (st', l')) :
    st'.logSz = st.logSz + 1 ∧ Access.Filled inst tid [x] st.logSz st' := by
  obtain ⟨hab, hrun⟩ := runHook_access hen h
  rw [logEvent_single hin hab] at hrun
  cases hrun
  refine ⟨rfl, .cons (Function.update_self ..) ?_⟩
  intro i hi
  exact absurd hi (Nat.not_lt_zero i)

/-! ### The bytes that are logged -/

/-- The bytes of the stores in a list of accesses. -/
theorem loggedStores_eq (hsz : st'.logSz = st.logSz + xs.length)
    (hfilled : Access.Filled inst tid xs st.logSz st') :
    loggedStores st st' = {a | ∃ x ∈ xs, x.ty = .st ∧ a ∈ CString.region ptrAdd x.addr x.len} := by
  ext a
  constructor
  · rintro ⟨n, hn, hlt, e, he, hty, k, hk, rfl⟩
    obtain ⟨i, rfl⟩ := Nat.exists_eq_add_of_le hn
    have hi : i < xs.length := by omega
    obtain rfl := Option.some.inj (he.symm.trans (hfilled i hi))
    exact ⟨xs[i], List.getElem_mem hi, hty, k, hk, rfl⟩
  · rintro ⟨x, hx, hty, k, hk, rfl⟩
    obtain ⟨i, hi, rfl⟩ := List.getElem_of_mem hx
    exact ⟨st.logSz + i, Nat.le_add_right _ _, by omega, _, hfilled i hi, hty, k, hk, rfl⟩

/-- Only one of the accesses stores. -/
theorem loggedStores_of_last (loads : List Access) (hsz : st'.logSz = st.logSz + (loads ++ [x]).length)
    (hfilled : Access.Filled inst tid (loads ++ [x]) st.logSz st') (hloads : ∀ y ∈ loads, y.ty = .ld)
    (hx : x.ty = .st) : loggedStores st st' = CString.region ptrAdd x.addr x.len := by
  rw [loggedStores_eq hsz hfilled]
  ext a
  constructor
  · rintro ⟨y, hy, hty, ha⟩
    rcases List.mem_append.mp hy with hy | hy
    · rw [hloads y hy] at hty
      cases hty
    · rwa [List.mem_singleton.mp hy] at ha
  · intro ha
    exact ⟨x, List.mem_append_right _ (List.mem_singleton_self x), hx, ha⟩

/-- **What a hook logs**, of the functions that write. -/
theorem loggedStores_before {ws : List (Addr × UInt8)} (hlibc : cfg.libc = true)
    (hnone : noBatch l = true) (hpend : l.pend = []) (hws : op.stores mem c = some ws)
    (h : runHook cfg (fun _ => false) inst tid ((op.libcCall mem inst).before cfg) st l = some (st', l')) :
    loggedStores st st' = CString.region ptrAdd (op.start mem) (op.lenLogged mem) := by
  have hen : cfg.enable = true := (Bool.and_eq_true_iff.mp hlibc).1
  have hin : inBatch l = false := by
    simp only [noBatch, Bool.and_eq_true, decide_eq_true_eq] at hnone
    exact decide_eq_false (not_not_intro hnone.1.1)
  cases op with
  | memcpy dest src n | memmove dest src n | strcpy dest src | strncpy dest src n =>
    obtain ⟨hsz, hfilled⟩ := runHook_logBatch hlibc rfl (by simp) hnone hpend h
    exact loggedStores_of_last [⟨.ld, src, _⟩] hsz hfilled (by simp) rfl
  | strcat dest src | strncat dest src n =>
    obtain ⟨hsz, hfilled⟩ := runHook_logBatch hlibc rfl (by simp) hnone hpend h
    exact loggedStores_of_last [⟨.ld, src, _⟩, ⟨.ld, dest, _⟩] hsz hfilled (by simp) rfl
  | memset str n =>
    obtain ⟨hsz, hfilled⟩ := runHook_single hen hin h
    exact loggedStores_of_last [] hsz hfilled (by simp) rfl
  | _ => cases hws

/-! ### The bytes that are written -/

/-- **What the function writes.** -/
theorem written_stores {ws : List (Addr × UInt8)} (hws : op.stores mem c = some ws) :
    CString.written ws = CString.region ptrAdd (op.start mem) (op.lenWritten mem) := by
  cases op with
  | memcpy | memmove =>
    cases hws
    exact CString.written_copy
  | memset =>
    cases hws
    exact CString.written_fill
  | strcat | strcpy =>
    cases hws
    exact CString.written_strcpy
  | strncat =>
    cases hws
    exact CString.written_strncat
  | strncpy =>
    cases hws
    exact CString.written_strncpy
  | _ => cases hws

/-- The bytes of a region are different, up to the size of the memory. -/
theorem injOn_ptrAdd (a : Addr) : Set.InjOn (ptrAdd a) (Set.Iio UInt64.size) := by
  intro k hk m hm h
  have hmod : Nat.ModEq UInt64.size k m := Nat.ModEq.add_left_cancel' a h
  exact hmod.eq_of_lt_of_lt hk hm

theorem lenLogged_le (hargs : op.Args mem) : op.lenLogged mem ≤ UInt64.size := by
  cases op with
  | memcpy | memmove | memset => exact le_of_lt hargs
  | strncat => exact le_of_lt hargs.2
  | strcat | strcpy => exact CString.strnlen_le
  | strncpy dest src n =>
    simp only [Op.lenLogged]
    split_ifs
    · exact CString.strnlen_le
    · exact le_of_lt hargs
  | _ => exact Nat.zero_le _

theorem lenWritten_le (hargs : op.Args mem) : op.lenWritten mem ≤ UInt64.size := by
  cases op with
  | memcpy | memmove | memset | strncpy => exact le_of_lt hargs
  | strncat dest src n => exact Nat.succ_le_of_lt (lt_of_le_of_lt CString.strnlen_le hargs.2)
  | strcat => exact hargs.2
  | strcpy => exact hargs
  | _ => exact Nat.zero_le _

/-- **When the lengths agree.** -/
theorem lenLogged_eq_iff {ws : List (Addr × UInt8)} (hargs : op.Args mem)
    (hws : op.stores mem c = some ws) :
    op.lenLogged mem = op.lenWritten mem ↔ op.StoresLogged mem := by
  cases op with
  | memcpy | memmove | memset => exact iff_of_true rfl trivial
  | strcat | strcpy => exact iff_of_false (Nat.lt_succ_self _).ne id
  | strncat dest src n =>
    have hmin : CString.strnlen ptrAdd mem src n = min (mem.strlen src) n :=
      CString.strnlen_eq_min (le_of_lt hargs.2)
    simp only [Op.lenLogged, Op.lenWritten, Op.StoresLogged, hmin]
    omega
  | strncpy dest src n =>
    simp only [Op.lenLogged, Op.lenWritten, Op.StoresLogged]
    split_ifs <;> omega
  | _ => cases hws

/-- **The bytes that the hook of a function logs as stored are the bytes that the function writes** if and
only if the condition holds. -/
theorem storesLogged_iff {ws : List (Addr × UInt8)} (hlibc : cfg.libc = true) (hnone : noBatch l = true)
    (hpend : l.pend = []) (hargs : op.Args mem) (hws : op.stores mem c = some ws)
    (h : runHook cfg (fun _ => false) inst tid ((op.libcCall mem inst).before cfg) st l = some (st', l')) :
    loggedStores st st' = CString.written ws ↔ op.StoresLogged mem := by
  rw [loggedStores_before hlibc hnone hpend hws h, written_stores hws,
    CString.region_eq_iff (injOn_ptrAdd _) (lenLogged_le hargs) (lenWritten_le hargs),
    lenLogged_eq_iff hargs hws]

/-- The string `"a"` at address 16. -/
def textA : Mem := fun a => if a = 16 then 97 else 0

/-- The logger with `LOG_LIBC_MEM_OP`. -/
def libcConfig : LogConfig := ⟨true, true, true⟩

/-- `strncpy` of `"a"` with four bytes. -/
theorem storesLogged_iff_textA : ∃ st' l',
    runHook libcConfig (fun _ => false) 0 0 (((Op.strncpy 32 16 4).libcCall textA 0).before libcConfig)
        Logger.init initLocal = some (st', l') ∧
      (loggedStores Logger.init st' = CString.written (CString.strncpy ptrAdd textA 32 16 4) ↔
        (Op.strncpy 32 16 4).StoresLogged textA) := by
  obtain ⟨st', l', hrun⟩ : ∃ st' l', runHook libcConfig (fun _ => false) 0 0
      (((Op.strncpy 32 16 4).libcCall textA 0).before libcConfig) Logger.init initLocal =
        some (st', l') := ⟨_, _, rfl⟩
  have hargs : (4 : ℕ) < UInt64.size := by decide
  exact ⟨st', l', hrun, storesLogged_iff (c := 0) rfl rfl rfl hargs rfl hrun⟩

theorem strlen_textA : textA.strlen 16 = 1 := by decide +kernel

/-- **The null byte** of a `strcpy` of `"a"` is in no event. -/
theorem nul_not_logged : ∃ st' l',
    runHook libcConfig (fun _ => false) 0 0 (((Op.strcpy 32 16).libcCall textA 0).before libcConfig)
        Logger.init initLocal = some (st', l') ∧
      33 ∈ CString.written (CString.strcpy ptrAdd textA UInt64.size 32 16) ∧
      33 ∉ loggedStores Logger.init st' := by
  obtain ⟨st', l', hrun⟩ : ∃ st' l', runHook libcConfig (fun _ => false) 0 0
      (((Op.strcpy 32 16).libcCall textA 0).before libcConfig) Logger.init initLocal =
        some (st', l') := ⟨_, _, rfl⟩
  refine ⟨st', l', hrun, ?_, ?_⟩
  · rw [CString.written_strcpy]
    refine ⟨1, ?_, rfl⟩
    exact Nat.lt_succ_of_le (le_of_eq strlen_textA.symm)
  · rw [loggedStores_before (c := 0) rfl rfl rfl rfl hrun]
    rintro ⟨k, hk, hadd⟩
    rw [Op.lenLogged, strlen_textA, Set.mem_Iio, Nat.lt_one_iff] at hk
    subst hk
    exact absurd hadd (by decide)

end Schnauzer
