import Schnauzer.Core.Logger

/-!
# The hooks of the SCS executor

`runtime/scs/ScScheduler`: what runs before and after each operation of the program that the
wrappers of `core/Interface` replace. A hook is the list of its calls into the scheduler
(`ScsImpl`) and the logger. `Op.before` and `Op.after` are the hooks that the wrapper of an
operation runs; those that `ScScheduler` does not override are the empty ones of
`Executor`.
-/

namespace Schnauzer

/-- The functions of `ScsImpl` that the hooks call. -/
inductive ScsCall where
  | beforeSyncOperation | afterSyncOperation | beforeFuncCall | afterFuncCall
  deriving DecidableEq

/-- A call that a hook makes. -/
inductive Stmt where
  | scs (call : ScsCall)
  | log (call : LogCall)
  deriving DecidableEq

namespace ScScheduler

/-- `beforeLoad`. -/
def beforeLoad (isOnStack : Addr → Bool) (addr : Addr) : List Stmt :=
  if isOnStack addr then [] else [.log (.logVarAccessEvent .ld addr)]

/-- `beforeStore`. -/
def beforeStore (isOnStack : Addr → Bool) (addr : Addr) : List Stmt :=
  if isOnStack addr then [] else [.log (.logVarAccessEvent .st addr)]

/-- `beforeFree`. -/
def beforeFree (addr : Addr) : List Stmt := [.log (.logVarAccessEvent .st addr)]

/-- `beforeFuncCall`. -/
def beforeFuncCall : List Stmt := [.scs .beforeFuncCall]

/-- `afterFuncCall`. -/
def afterFuncCall : List Stmt := [.scs .afterFuncCall]

/-- `beforePthreadCreate`. -/
def beforePthreadCreate : List Stmt := [.scs .beforeSyncOperation, .log (.startBatch 1)]

/-- `afterPthreadCreate`. -/
def afterPthreadCreate (t : ℕ) : List Stmt :=
  [.scs .afterSyncOperation, .log (.logThreadCreateEvent t), .log .endBatch]

/-- `beforePthreadJoin`. -/
def beforePthreadJoin : List Stmt := [.scs .beforeSyncOperation]

/-- `afterPthreadJoin`. -/
def afterPthreadJoin (t : ℕ) : List Stmt := [.scs .afterSyncOperation, .log (.logThreadJoinEvent t)]

/-- `beforePthreadMutexLock`. -/
def beforePthreadMutexLock : List Stmt := [.scs .beforeSyncOperation]

/-- `afterPthreadMutexLock`. -/
def afterPthreadMutexLock (m : Addr) : List Stmt :=
  [.scs .afterSyncOperation, .log (.logSyncOpEvent .lock m)]

/-- `beforePthreadMutexTrylock`. -/
def beforePthreadMutexTrylock : List Stmt := [.scs .beforeSyncOperation]

/-- `afterPthreadMutexTrylock`. -/
def afterPthreadMutexTrylock (m : Addr) : List Stmt :=
  [.scs .afterSyncOperation, .log (.logSyncOpEvent .trylock m)]

/-- `beforePthreadMutexUnlock`. -/
def beforePthreadMutexUnlock (m : Addr) : List Stmt :=
  [.scs .beforeSyncOperation, .log (.logSyncOpEvent .unlock m)]

/-- `afterPthreadMutexUnlock`; it calls `beforeSyncOperation`. -/
def afterPthreadMutexUnlock : List Stmt := [.scs .beforeSyncOperation]

/-- `beforePthreadCondWait`. -/
def beforePthreadCondWait (c m : Addr) : List Stmt :=
  [.scs .beforeSyncOperation, .log (.logCondWaitEvent m c)]

/-- `afterPthreadCondWait`. -/
def afterPthreadCondWait (c m : Addr) : List Stmt :=
  [.scs .afterSyncOperation, .log (.logCondAwakeEvent m c)]

/-- `beforePthreadCondTimedwait`. -/
def beforePthreadCondTimedwait (c m : Addr) : List Stmt :=
  [.scs .beforeSyncOperation, .log (.logCondWaitEvent m c)]

/-- `afterPthreadCondTimedwait`. -/
def afterPthreadCondTimedwait (c m : Addr) : List Stmt :=
  [.scs .afterSyncOperation, .log (.logCondAwakeEvent m c)]

/-- `beforePthreadCondSignal`. -/
def beforePthreadCondSignal (c : Addr) : List Stmt :=
  [.scs .beforeSyncOperation, .log (.logSyncOpEvent .signal c)]

/-- `afterPthreadCondSignal`. -/
def afterPthreadCondSignal : List Stmt := [.scs .afterSyncOperation]

/-- `beforePthreadCondBroadcast`. -/
def beforePthreadCondBroadcast (c : Addr) : List Stmt :=
  [.scs .beforeSyncOperation, .log (.logSyncOpEvent .broadcast c)]

/-- `afterPthreadCondBroadcast`. -/
def afterPthreadCondBroadcast : List Stmt := [.scs .afterSyncOperation]

/-! ### Memory and string functions -/

/-- An array that a `libc` function reads or writes. -/
structure Access where
  /-- `OP_LD` or `OP_ST`. -/
  ty : OpTy
  /-- The address. -/
  addr : Addr
  /-- The length. -/
  len : ℕ

/-- `logArrayAccessEvent` for an access. -/
def Access.log (x : Access) : Stmt := .log (.logArrayAccessEvent x.ty x.addr x.len)

/-- `dest + n` on pointers. -/
def ptrAdd (a : Addr) (n : ℕ) : Addr := (a + n) % UInt64.size

/-- A hook that logs one access, if such functions are logged. -/
def logOne (cfg : LogConfig) (x : Access) : List Stmt :=
  if ¬ cfg.libc then [] else [x.log]

/-- A hook that logs its accesses as one batch, if such functions are logged. -/
def logBatch (cfg : LogConfig) (batch : List Addr) (xs : List Access) : List Stmt :=
  if ¬ cfg.libc then []
  else .log (.startBatchFor batch) :: (xs.map Access.log ++ [.log .endBatch])

variable (cfg : LogConfig) (strlen : Addr → ℕ)

/-- `beforeMemchr`. -/
def beforeMemchr (str : Addr) (n : ℕ) : List Stmt := logOne cfg ⟨.ld, str, n⟩

/-- `beforeMemcmp`. -/
def beforeMemcmp (str1 str2 : Addr) (n : ℕ) : List Stmt :=
  logBatch cfg [str1, str2] [⟨.ld, str1, n⟩, ⟨.ld, str2, n⟩]

/-- `beforeMemcpy`. -/
def beforeMemcpy (dest src : Addr) (n : ℕ) : List Stmt :=
  logBatch cfg [dest, src] [⟨.ld, src, n⟩, ⟨.st, dest, n⟩]

/-- `beforeMemmove`. -/
def beforeMemmove (dest src : Addr) (n : ℕ) : List Stmt :=
  logBatch cfg [dest, src] [⟨.ld, src, n⟩, ⟨.st, dest, n⟩]

/-- `beforeMemset`, logged whatever the setting. -/
def beforeMemset (str : Addr) (n : ℕ) : List Stmt := [Access.log ⟨.st, str, n⟩]

/-- `beforeStrcat`. -/
def beforeStrcat (dest src : Addr) : List Stmt :=
  let nSrc := strlen src
  let nDest := strlen dest
  logBatch cfg [dest, src, ptrAdd dest nDest]
    [⟨.ld, src, nSrc⟩, ⟨.ld, dest, nDest⟩, ⟨.st, ptrAdd dest nDest, nSrc⟩]

/-- `beforeStrncat`. -/
def beforeStrncat (dest src : Addr) (n : ℕ) : List Stmt :=
  let nDest := strlen dest
  logBatch cfg [dest, src, ptrAdd dest nDest]
    [⟨.ld, src, n⟩, ⟨.ld, dest, nDest⟩, ⟨.st, ptrAdd dest nDest, n⟩]

/-- `beforeStrchr`. -/
def beforeStrchr (str : Addr) : List Stmt := logOne cfg ⟨.ld, str, strlen str⟩

/-- `beforeStrcmp`. -/
def beforeStrcmp (str1 str2 : Addr) : List Stmt :=
  logBatch cfg [str1, str2] [⟨.ld, str1, strlen str1⟩, ⟨.ld, str2, strlen str2⟩]

/-- `beforeStrncmp`. -/
def beforeStrncmp (str1 str2 : Addr) : List Stmt :=
  logBatch cfg [str1, str2] [⟨.ld, str1, strlen str1⟩, ⟨.ld, str2, strlen str2⟩]

/-- `beforeStrcpy`. -/
def beforeStrcpy (dest src : Addr) : List Stmt :=
  let n := strlen src
  logBatch cfg [dest, src] [⟨.ld, src, n⟩, ⟨.st, dest, n⟩]

/-- `beforeStrncpy`. -/
def beforeStrncpy (dest src : Addr) (n : ℕ) : List Stmt :=
  let nSrc := strlen src
  let n := if nSrc > n then nSrc else n
  logBatch cfg [dest, src] [⟨.ld, src, n⟩, ⟨.st, dest, n⟩]

/-- `beforeStrcspn`. -/
def beforeStrcspn (str1 str2 : Addr) : List Stmt :=
  logBatch cfg [str1, str2] [⟨.ld, str1, strlen str1⟩, ⟨.ld, str2, strlen str2⟩]

/-- `beforeStrlen`. -/
def beforeStrlen (str : Addr) : List Stmt := logOne cfg ⟨.ld, str, strlen str⟩

/-- `beforeStrpbrk`. -/
def beforeStrpbrk (str1 str2 : Addr) : List Stmt :=
  logBatch cfg [str1, str2] [⟨.ld, str1, strlen str1⟩, ⟨.ld, str2, strlen str2⟩]

/-- `beforeStrrchr`. -/
def beforeStrrchr (str : Addr) : List Stmt := logOne cfg ⟨.ld, str, strlen str⟩

/-- `beforeStrspn`. -/
def beforeStrspn (str1 str2 : Addr) : List Stmt :=
  logBatch cfg [str1, str2] [⟨.ld, str1, strlen str1⟩, ⟨.ld, str2, strlen str2⟩]

/-- `beforeStrstr`. -/
def beforeStrstr (haystack needle : Addr) : List Stmt :=
  logBatch cfg [haystack, needle] [⟨.ld, needle, strlen needle⟩, ⟨.ld, haystack, strlen haystack⟩]

end ScScheduler

/-- The operations of the program that the wrappers replace. -/
inductive Op where
  | load (addr : Addr)
  | store (addr : Addr)
  | free (addr : Addr)
  /-- The call of a function, and its return. -/
  | enterCall | leaveCall
  | create
  | join (t : ℕ)
  | mutexLock (m : Addr)
  | mutexTrylock (m : Addr)
  | mutexUnlock (m : Addr)
  | mutexDestroy (m : Addr)
  | condWait (c m : Addr)
  | condTimedwait (c m : Addr)
  | condSignal (c : Addr)
  | condBroadcast (c : Addr)
  | rwlockRdlock (l : Addr)
  | rwlockWrlock (l : Addr)
  | rwlockTryrdlock (l : Addr)
  | rwlockTrywrlock (l : Addr)
  | rwlockUnlock (l : Addr)
  | memchr (str : Addr) (n : ℕ)
  | memcmp (str1 str2 : Addr) (n : ℕ)
  | memcpy (dest src : Addr) (n : ℕ)
  | memmove (dest src : Addr) (n : ℕ)
  | memset (str : Addr) (n : ℕ)
  | strcat (dest src : Addr)
  | strncat (dest src : Addr) (n : ℕ)
  | strchr (str : Addr)
  | strcmp (str1 str2 : Addr)
  | strncmp (str1 str2 : Addr) (n : ℕ)
  | strcoll (str1 str2 : Addr)
  | strcpy (dest src : Addr)
  | strncpy (dest src : Addr) (n : ℕ)
  | strcspn (str1 str2 : Addr)
  | strerror
  | strlen (str : Addr)
  | strpbrk (str1 str2 : Addr)
  | strrchr (str : Addr)
  | strspn (str1 str2 : Addr)
  | strstr (haystack needle : Addr)
  | strtok (str delim : Addr)
  | strxfrm (dest src : Addr) (n : ℕ)
  deriving DecidableEq

/-- A call of a wrapper: the operation, and what its hooks find. -/
structure Call where
  /-- The operation. -/
  op : Op
  /-- `inst_id`. -/
  inst : ℕ
  /-- `Utils::isOnStack` for the thread that calls, from `before` to `after`. -/
  isOnStack : Addr → Bool
  /-- The lengths of the strings in memory. -/
  strlen : Addr → ℕ

namespace Call

open ScScheduler

variable (cfg : LogConfig) (call : Call)

/-- The hook that the wrapper runs before the operation. -/
def before : List Stmt :=
  match call.op with
  | .load a => beforeLoad call.isOnStack a
  | .store a => beforeStore call.isOnStack a
  | .free a => beforeFree a
  | .enterCall => beforeFuncCall
  | .leaveCall => afterFuncCall
  | .create => beforePthreadCreate
  | .join _ => beforePthreadJoin
  | .mutexLock _ => beforePthreadMutexLock
  | .mutexTrylock _ => beforePthreadMutexTrylock
  | .mutexUnlock m => beforePthreadMutexUnlock m
  -- `pthread_mutex_destroy_wrapper` runs the hooks of `pthread_mutex_lock`
  | .mutexDestroy _ => beforePthreadMutexLock
  | .condWait c m => beforePthreadCondWait c m
  | .condTimedwait c m => beforePthreadCondTimedwait c m
  | .condSignal c => beforePthreadCondSignal c
  | .condBroadcast c => beforePthreadCondBroadcast c
  -- the hooks of reader-writer locks are not overridden
  | .rwlockRdlock _ | .rwlockWrlock _ | .rwlockTryrdlock _ | .rwlockTrywrlock _
  | .rwlockUnlock _ => []
  | .memchr s n => beforeMemchr cfg s n
  | .memcmp s t n => beforeMemcmp cfg s t n
  | .memcpy d s n => beforeMemcpy cfg d s n
  | .memmove d s n => beforeMemmove cfg d s n
  | .memset s n => beforeMemset s n
  | .strcat d s => beforeStrcat cfg call.strlen d s
  | .strncat d s n => beforeStrncat cfg call.strlen d s n
  | .strchr s => beforeStrchr cfg call.strlen s
  | .strcmp s t => beforeStrcmp cfg call.strlen s t
  | .strncmp s t _ => beforeStrncmp cfg call.strlen s t
  | .strcpy d s => beforeStrcpy cfg call.strlen d s
  | .strncpy d s n => beforeStrncpy cfg call.strlen d s n
  | .strcspn s t => beforeStrcspn cfg call.strlen s t
  | .strlen s => beforeStrlen cfg call.strlen s
  | .strpbrk s t => beforeStrpbrk cfg call.strlen s t
  | .strrchr s => beforeStrrchr cfg call.strlen s
  | .strspn s t => beforeStrspn cfg call.strlen s t
  | .strstr h n => beforeStrstr cfg call.strlen h n
  -- overridden, but empty
  | .strcoll _ _ | .strerror | .strtok _ _ | .strxfrm _ _ _ => []

/-- The hook that the wrapper runs after the operation; `t` is the thread created or
joined. -/
def after (t : ℕ) : List Stmt :=
  match call.op with
  | .create => afterPthreadCreate t
  | .join _ => afterPthreadJoin t
  | .mutexLock m => afterPthreadMutexLock m
  | .mutexTrylock m => afterPthreadMutexTrylock m
  | .mutexUnlock _ => afterPthreadMutexUnlock
  | .mutexDestroy m => afterPthreadMutexLock m
  | .condWait c m => afterPthreadCondWait c m
  | .condTimedwait c m => afterPthreadCondTimedwait c m
  | .condSignal _ => afterPthreadCondSignal
  | .condBroadcast _ => afterPthreadCondBroadcast
  | _ => []

end Call

/-- A call of a wrapper in a program without stack or strings. -/
def plainCall (op : Op) : Call := ⟨op, 0, fun _ => false, fun _ => 0⟩

end Schnauzer
