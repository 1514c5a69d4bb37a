import Schnauzer.Core.LogSlots
import Schnauzer.Scs.ScScheduler

/-!
# The hooks keep the discipline of the log

`hookRun` follows the batches of a hook. Whatever is on the stack, a batch that a hook opens for
several addresses gets an event for each address that is not on the stack, and only
`beforePthreadCreate` leaves a batch open, which `afterPthreadCreate` fills and closes.

## What is proved

* `Call.hookRun_before`, `Call.hookRun_after` — the hooks of every wrapper keep the discipline.
* `Call.storable_before`, `Call.storable_after` — and log only events that can be stored.
-/

namespace Schnauzer

open Logger

/-- The calls of a hook, when `missing` events of a batch are missing; the outer `none` is a failure. -/
def hookRun (isOnStack : Addr → Bool) : Option ℕ → List Stmt → Option (Option ℕ)
  | missing, [] => some missing
  | missing, .scs _ :: todo => hookRun isOnStack missing todo
  | missing, .log lc :: todo => (batchStep isOnStack missing lc).bind fun missing =>
      hookRun isOnStack missing todo

/-- The batch that is open during the operation. -/
def Call.batch (call : Call) : Option ℕ :=
  match call.op with
  | .create => some 1
  | _ => none

variable {isOnStack : Addr → Bool}

/-- Outside a batch accesses may be logged freely. -/
theorem hookRun_accesses_none (xs : List ScScheduler.Access) (rest : List Stmt) :
    hookRun isOnStack none (xs.map ScScheduler.Access.log ++ rest) = hookRun isOnStack none rest := by
  induction xs with
  | nil => rfl
  | cons x xs ih =>
    simp only [List.map_cons, List.cons_append, ScScheduler.Access.log, hookRun, batchStep, eventStep,
      ite_self, Option.bind_some]
    exact ih

/-- In a batch each access that is not on the stack takes a slot. -/
theorem hookRun_accesses_some (xs : List ScScheduler.Access) (rest : List Stmt) (k : ℕ) :
    hookRun isOnStack (some (nrValidAddr isOnStack (xs.map ScScheduler.Access.addr) + k))
      (xs.map ScScheduler.Access.log ++ rest) = hookRun isOnStack (some k) rest := by
  induction xs with
  | nil => simp [nrValidAddr]
  | cons x xs ih =>
    simp only [List.map_cons, List.cons_append, ScScheduler.Access.log, hookRun, batchStep]
    by_cases hs : isOnStack x.addr
    · rw [if_pos hs, Option.bind_some]
      have hnr : nrValidAddr isOnStack (x.addr :: xs.map ScScheduler.Access.addr) =
          nrValidAddr isOnStack (xs.map ScScheduler.Access.addr) := by
        simp [nrValidAddr, hs]
      rw [hnr]
      exact ih
    · have hnr : nrValidAddr isOnStack (x.addr :: xs.map ScScheduler.Access.addr) + k =
          nrValidAddr isOnStack (xs.map ScScheduler.Access.addr) + k + 1 := by
        simp only [nrValidAddr, List.countP_cons, hs, Bool.not_false, if_true]
        omega
      rw [if_neg hs, hnr]
      exact ih

/-- **A batch** for the addresses of its accesses, in any order. -/
theorem hookRun_logBatch (cfg : LogConfig) {batch : List Addr} {xs : List ScScheduler.Access}
    (hperm : batch.Perm (xs.map ScScheduler.Access.addr)) :
    hookRun isOnStack none (ScScheduler.logBatch cfg batch xs) = some none := by
  unfold ScScheduler.logBatch
  split_ifs with hlibc
  swap
  · rfl
  · have hnr : nrValidAddr isOnStack batch = nrValidAddr isOnStack (xs.map ScScheduler.Access.addr) :=
      hperm.countP_eq _
    simp only [hookRun, batchStep, if_true]
    split_ifs with hgt
    · rw [Option.bind_some, hnr, ← Nat.add_zero (nrValidAddr isOnStack _), hookRun_accesses_some]
      rfl
    · rw [Option.bind_some, hookRun_accesses_none]
      rfl

theorem hookRun_logOne (cfg : LogConfig) (x : ScScheduler.Access) :
    hookRun isOnStack none (ScScheduler.logOne cfg x) = some none := by
  unfold ScScheduler.logOne
  split_ifs
  · exact hookRun_accesses_none [x] []
  · rfl

namespace Call

open ScScheduler

/-- Before the operation. -/
theorem hookRun_before (cfg : LogConfig) (call : Call) :
    hookRun call.isOnStack none (call.before cfg) = some call.batch := by
  obtain ⟨op, inst, st, sl⟩ := call
  cases op with
  | load a =>
    simp only [before, beforeLoad, batch]
    split_ifs with hs
    · rfl
    · simp [hookRun, batchStep, eventStep]
  | store a =>
    simp only [before, beforeStore, batch]
    split_ifs with hs
    · rfl
    · simp [hookRun, batchStep, eventStep]
  | free a => simp [before, beforeFree, batch, hookRun, batchStep, eventStep]
  | memset a n => exact hookRun_accesses_none [⟨.st, a, n⟩] []
  | memchr | strchr | strlen | strrchr => exact hookRun_logOne _ _
  | memcmp | strcmp | strncmp | strcspn | strpbrk | strspn => exact hookRun_logBatch _ (.refl _)
  | memcpy | memmove | strcpy | strncpy | strstr => exact hookRun_logBatch _ (.swap _ _ _)
  | strcat | strncat => exact hookRun_logBatch _ (.swap _ _ _)
  | _ => rfl

/-- After the operation. -/
theorem hookRun_after (call : Call) (r : ℕ) :
    hookRun call.isOnStack call.batch (call.after r) = some none := by
  obtain ⟨op, inst, st, sl⟩ := call
  cases op <;> rfl

end Call

/-! ### What the hooks log can be stored -/

/-- A batch of at most three events, or events of a type that `Event::storeEvent` lets pass. -/
def Stmt.storable : Stmt → Bool
  | .scs _ => true
  | .log (.startBatch nr) => nr ≤ 3
  | .log (.startBatchFor addrs) => addrs.length ≤ 3
  | .log (.logVarAccessEvent ty _) | .log (.logArrayAccessEvent ty _ _) | .log (.logSyncOpEvent ty _) =>
    12 ≤ ty.code && ty.code ≤ 22
  | .log _ => true

theorem storable_accesses {xs : List ScScheduler.Access} (h : ∀ x ∈ xs, x.ty = .ld ∨ x.ty = .st) :
    (xs.map ScScheduler.Access.log).all Stmt.storable = true := by
  rw [List.all_eq_true]
  intro stmt hstmt
  obtain ⟨x, hx, rfl⟩ := List.mem_map.mp hstmt
  simp only [ScScheduler.Access.log, Stmt.storable]
  cases h x hx with
  | inl h => rw [h]; rfl
  | inr h => rw [h]; rfl

theorem storable_logBatch (cfg : LogConfig) {batch : List Addr} {xs : List ScScheduler.Access}
    (hle : batch.length ≤ 3) (h : ∀ x ∈ xs, x.ty = .ld ∨ x.ty = .st) :
    (ScScheduler.logBatch cfg batch xs).all Stmt.storable = true := by
  unfold ScScheduler.logBatch
  split_ifs
  · rw [List.all_cons, List.all_append, storable_accesses h]
    simpa [Stmt.storable] using hle
  · rfl

theorem storable_logOne (cfg : LogConfig) {x : ScScheduler.Access} (h : x.ty = .ld ∨ x.ty = .st) :
    (ScScheduler.logOne cfg x).all Stmt.storable = true := by
  unfold ScScheduler.logOne
  split_ifs
  · exact @storable_accesses [x] (by simpa using h)
  · rfl

theorem Call.storable_before (cfg : LogConfig) (call : Call) :
    (call.before cfg).all Stmt.storable = true := by
  obtain ⟨op, inst, st, sl⟩ := call
  cases op with
  | memchr | strchr | strlen | strrchr => exact storable_logOne _ (Or.inl rfl)
  | memcmp | strcmp | strncmp | strcspn | strpbrk | strspn | memcpy | memmove | strcpy | strncpy | strstr
  | strcat | strncat => exact storable_logBatch _ (by simp) (by simp)
  | load a | store a =>
    simp only [before, ScScheduler.beforeLoad, ScScheduler.beforeStore]
    split_ifs <;> rfl
  | _ => rfl

theorem Call.storable_after (call : Call) (r : ℕ) : (call.after r).all Stmt.storable = true := by
  obtain ⟨op, inst, st, sl⟩ := call
  cases op <;> rfl

/-- An event that a storable call makes is storable. -/
theorem storable_of_makers {inst tid : ℕ} {lc : LogCall} (h : (Stmt.log lc).storable = true)
    {mk : ℕ → Event} (hmk : mk ∈ lc.makers inst tid) (ts : ℕ) : (mk ts).Storable := by
  cases lc with
  | startBatch | startBatchFor | endBatch => cases hmk
  | logVarAccessEvent ty | logArrayAccessEvent ty | logSyncOpEvent ty =>
    obtain rfl := List.mem_singleton.mp hmk
    show 12 ≤ ty.code ∧ ty.code ≤ 22
    simpa [Stmt.storable] using h
  | logThreadCreateEvent =>
    obtain rfl := List.mem_singleton.mp hmk
    show 12 ≤ OpTy.code .create ∧ OpTy.code .create ≤ 22
    decide
  | logThreadJoinEvent =>
    obtain rfl := List.mem_singleton.mp hmk
    show 12 ≤ OpTy.code .join ∧ OpTy.code .join ≤ 22
    decide
  | logCondWaitEvent =>
    simp only [LogCall.makers, List.mem_cons, List.not_mem_nil, or_false] at hmk
    rcases hmk with rfl | rfl
    · show 12 ≤ OpTy.code .unlock ∧ OpTy.code .unlock ≤ 22
      decide
    · show 12 ≤ OpTy.code .wait ∧ OpTy.code .wait ≤ 22
      decide
  | logCondAwakeEvent =>
    simp only [LogCall.makers, List.mem_cons, List.not_mem_nil, or_false] at hmk
    rcases hmk with rfl | rfl
    · show 12 ≤ OpTy.code .lock ∧ OpTy.code .lock ≤ 22
      decide
    · show 12 ≤ OpTy.code .awake ∧ OpTy.code .awake ≤ 22
      decide

/-- What is in store for a thread's slots: its batch is small, and its stores are of events that can
be stored. -/
structure Storable (l : LogLocal) : Prop where
  batch : inBatch l = true → l.batchSz ≤ 3
  pend : ∀ x ∈ l.pend, x.1 < MAX_NR_EVENTS ∧ x.2.Storable

theorem storable_initLocal : Storable initLocal where
  batch := fun h => by cases h
  pend := fun x hx => by cases hx

/-- A call that is storable keeps this. -/
theorem Storable.exec {l : LogLocal} (h : Storable l) (cfg : LogConfig) (isOnStack : Addr → Bool)
    (inst tid : ℕ) (st : LogState) {lc : LogCall} (hpend : l.pend = [])
    (hlc : (Stmt.log lc).storable = true) : Storable (Logger.exec cfg isOnStack inst tid st l lc).2 := by
  refine ⟨?_, fun x hx => ?_⟩
  swap
  · obtain ⟨hlt, mk, hmk, heq⟩ := exec_pend cfg isOnStack inst tid st lc hpend x hx
    rw [heq]
    exact ⟨hlt, storable_of_makers hlc hmk _⟩
  have hevent : ∀ mk, inBatch (logEvent mk st l).2 = true → (logEvent mk st l).2.batchSz ≤ 3 := by
    intro mk
    unfold logEvent
    dsimp only
    split_ifs <;> exact h.batch
  have hpair : ∀ mk mk', inBatch (logPair mk mk' st l).2 = true → (logPair mk mk' st l).2.batchSz ≤ 3 := by
    intro mk mk'
    unfold logPair
    dsimp only
    split_ifs <;> exact h.batch
  cases lc with
  | startBatch nr =>
    have hnr : nr ≤ 3 := by simpa [Stmt.storable] using hlc
    simp only [Logger.exec, startBatch]
    split_ifs <;> first
      | exact h.batch
      | exact fun _ => hnr
  | startBatchFor addrs =>
    have hnr : nrValidAddr isOnStack addrs ≤ 3 :=
      List.countP_le_length.trans (by simpa [Stmt.storable] using hlc)
    simp only [Logger.exec, startBatchFor]
    split_ifs <;> first
      | exact h.batch
      | exact fun _ => hnr
  | endBatch =>
    have hno : ∀ k : ℕ, inBatch { l with batchId := MAX_NUMBER, batchPos := MAX_NUMBER, batchSz := MAX_NUMBER } =
        true → k ≤ 3 := fun k hin => by simp [inBatch] at hin
    simp only [Logger.exec, endBatch]
    split_ifs <;> first
      | exact h.batch
      | exact hno _
  | logVarAccessEvent | logArrayAccessEvent | logSyncOpEvent | logThreadCreateEvent | logThreadJoinEvent =>
    simp only [Logger.exec]
    split_ifs <;> first
      | exact h.batch
      | exact hevent _
  | logCondWaitEvent | logCondAwakeEvent =>
    simp only [Logger.exec]
    split_ifs
    · exact hpair _ _
    · exact h.batch

end Schnauzer
