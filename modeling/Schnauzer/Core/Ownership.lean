import Schnauzer.Core.History

/-!
# Who owns a mutex

A thread owns a mutex at the labels where it acquires it or awakes with it, and at those where it reserves the
slot of an `UNLOCK`, in front of the release.

## What is proved

* `Owners.excl` — between two such labels of different threads the first thread releases the mutex.
-/

namespace Schnauzer

/-- The mutex that an operation gives back. -/
def Op.needs : Op → Option Addr
  | .mutexUnlock m | .condWait _ m | .condTimedwait _ m => some m
  | _ => none

namespace Interface

open Logger Runs

variable {cfg : Config} {s s' : State} {a : Action}

/-- The mutex that a thread owns at a label. -/
def Act.owned : Act → Option Addr
  | .acquire m | .awake _ m _ => some m
  | .log (.logSyncOpEvent .unlock m) _ | .log (.logCondWaitEvent m _) _ => some m
  | _ => none

/-- The operation that a thread is in front of. -/
def Pc.early : Pc → Option Call
  | .before call _ _ | .atCall call _ => some call
  | _ => none

@[simp] theorem Pc.early_took (pc : Pc) (n : ℕ) : (pc.took n).early = pc.early := by
  cases pc <;> rfl

/-- A thread comes in front of an operation by a call. -/
theorem early_of_step (hstep : Stepped cfg s a s') {t : ℕ} {call : Call}
    (h : (s'.thr t).pc.early = some call) :
    (s.thr t).pc.early = some call ∨ a = .call t call ∧ Allowed cfg s t call.op := by
  by_cases ht : t = a.thread
  swap
  · rcases thr_of_ne hstep ht with heq | ⟨-, -, -, heq⟩ | ⟨call', depth, i, -, heq⟩
    · rw [heq] at h
      exact Or.inl h
    · rw [heq] at h
      cases h
    · rw [heq] at h
      cases h
  subst ht
  have hhead : ∀ {u : ℕ} {call' : Call} {stmt : Stmt} {next : Pc},
      (s.thr u).pc.head = some (call', stmt, next) → next.early = some call → (s.thr u).pc.early = some call := by
    intro u call' stmt next hpc hn
    rcases Pc.head_cases hpc with ⟨todo, slot, hp, rfl⟩ | ⟨r, todo, lab, hp, rfl⟩
    · rw [hp]
      exact hn
    · cases hn
  cases hstep with
  | @call t call' hpc hall =>
    simp only [Action.thread] at h
    rcases enter_pc cfg s t call' with ⟨hpc', -⟩ | ⟨hpc', -⟩
    · rw [hpc'] at h
      cases h
      exact Or.inr ⟨rfl, hall⟩
    · rw [hpc'] at h
      cases h
      exact Or.inr ⟨rfl, hall⟩
  | @skip t call' c next hpend hpc =>
    simp only [Action.thread, State.setPc_self] at h
    exact Or.inl (hhead hpc h)
  | @log t call' lc next log l hpend hpc hlog hsz =>
    simp only [Action.thread, State.setPc_self] at h
    exact Or.inl (hhead hpc h)
  | @reserve t call' lc next log l hpend hpc hlog hsz =>
    simp only [Action.thread, State.setPc_self, Pc.early_took] at h
    exact Or.inl (hhead hpc h)
  | @store t log l hlog => exact Or.inl (by simpa [Action.thread, State.setLog] using h)
  | @atCall t call' slot hpend hpc =>
    simp only [Action.thread, State.setPc_self] at h ⊢
    rw [hpc]
    exact Or.inl h
  | @second t call' r lab hpc =>
    simp only [Action.thread, State.setPc_self] at h
    split_ifs at h <;> cases h
  | @exit t hpc hc =>
    simp only [Action.thread, beforeExit, State.setPc_self] at h
    split_ifs at h <;> cases h
  | @flush t i hpc =>
    simp only [Action.thread] at h
    exact absurd h (flushRound_place (P := fun pc => pc.early ≠ some call) hpc (fun _ hc => by cases hc) (fun hc => by cases hc))
  | _ =>
    simp only [Action.thread, State.setPc_self] at h
    cases h

/-- **A mutex changes its owner** by a release of the owner. -/
theorem Recorded.owner (h : Recorded s a s') {m : Addr} {u : ℕ} (hown : s.owner m = some u) :
    s'.owner m = some u ∨ s'.hist = s.hist ++ [⟨u, .release m⟩] := by
  have hsame : s'.owner = s.owner → s'.owner m = some u := fun h => by rw [h, hown]
  cases h with
  | same _ _ _ _ howner => exact Or.inl (hsame howner)
  | log _ _ _ _ _ howner _ => exact Or.inl (hsame howner)
  | act act slot hact hhist =>
    cases act with
    | log => exact hact.elim
    | spawn => exact Or.inl (hsame hact.2.2.1)
    | joined => exact Or.inl (hsame hact.2.2.1)
    | signal | rdlock | wrlock | rdunlock | wrunlock => exact Or.inl (hsame hact.2.1)
    | acquire m' =>
      obtain ⟨-, hfree, howner, -⟩ := hact
      apply Or.inl
      by_cases hm : m = m'
      · subst hm
        rw [hown] at hfree
        obtain rfl : u = a.thread := Option.some.inj (hfree.resolve_left (Option.some_ne_none _))
        rw [howner, Function.update_self]
      · rw [howner, Function.update_of_ne hm, hown]
    | release m' =>
      obtain ⟨hown', ⟨o, howner⟩, -⟩ := hact
      by_cases hm : m = m'
      · subst hm
        obtain rfl : u = a.thread := Option.some.inj (hown.symm.trans hown')
        exact Or.inr hhist
      · exact Or.inl (by rw [howner, Function.update_of_ne hm, hown])
    | awake c m' cause =>
      obtain ⟨-, hfree, howner, -⟩ := hact
      apply Or.inl
      by_cases hm : m = m'
      · subst hm
        rw [hown] at hfree
        cases hfree
      · rw [howner, Function.update_of_ne hm, hown]

/-! ### Mutual exclusion -/

/-- Who owns the mutexes. -/
structure Owners (s : State) : Prop where
  /-- A thread in front of an unlock or a wait. -/
  early : ∀ t call m, (s.thr t).pc.early = some call → call.op.needs = some m → s.owner m = some t
  /-- A thread owns a mutex until it releases it. -/
  own : ∀ i t act m, s.At i t act → act.owned = some m →
    s.owner m = some t ∨ ∃ k, i < k ∧ s.At k t (.release m)
  excl : ∀ i j t u act act' m, i < j → s.At i t act → s.At j u act' → act.owned = some m →
    act'.owned = some m → t ≠ u → ∃ k, i < k ∧ k < j ∧ s.At k t (.release m)

theorem Owners.init : Owners init where
  early := fun t call m h => by
    by_cases ht : t = 0
    · simp [Interface.init, ht, Pc.early] at h
    · simp [Interface.init, ht, Pc.early] at h
  own := fun i t act m h => by cases h
  excl := fun i j t u act act' m _ h => by cases h

/-- The hook that reserves the slot of an `UNLOCK` is the one before an operation that needs the mutex. -/
theorem needs_of_logsBefore {op : Op} {lc : LogCall} {m : Addr} {n : ℕ} (h : op.logsBefore = some lc)
    (hown : (Act.log lc n).owned = some m) : op.needs = some m := by
  cases op <;> cases h <;> cases hown <;> rfl

theorem not_owned_of_logsAfter {op : Op} {lc : LogCall} {r n : ℕ} (h : op.logsAfter r = some lc) :
    (Act.log lc n).owned = none := by
  cases op <;> cases h <;> rfl

theorem not_owned_of_access {lc : LogCall} {n : ℕ} (h : lc.isAccess ∨ lc = .endBatch) :
    (Act.log lc n).owned = none := by
  cases lc with
  | logSyncOpEvent | logCondWaitEvent => rcases h with h | h <;> cases h
  | _ => rfl

/-- A new label at which a thread owns a mutex: it owns the mutex now, and nobody else did before. -/
theorem Owners.new (h : Owners s) (hshape : ∀ t, (s.thr t).pc.Shape cfg) (hrec : Recorded s a s')
    {u : ℕ} {act : Act} {m : Addr} (hhist : s'.hist = s.hist ++ [⟨u, act⟩]) (hown : act.owned = some m) :
    s'.owner m = some u ∧ (s.owner m = none ∨ s.owner m = some u) := by
  have hlabel : ∀ {l : Label}, s'.hist = s.hist ++ [l] → l = ⟨u, act⟩ := fun h =>
    List.singleton_inj.mp (List.append_cancel_left (h.symm.trans hhist))
  cases hrec with
  | same hhist' =>
    have hlen := congrArg List.length (hhist'.symm.trans hhist)
    simp at hlen
  | @log call lc next hpc hsz hhist' hplace hrep howner hnext =>
    cases hlabel hhist'
    have hmine : s.owner m = some a.thread := by
      rcases (hshape a.thread).log hpc with ⟨todo, slot, hp, -, ⟨hlog, -⟩ | ⟨-, hacc⟩⟩ |
        ⟨r, todo, lab, hp, -, ⟨-, hlog, -⟩ | ⟨-, ⟨rfl, -⟩ | ⟨rfl, -⟩⟩⟩
      · exact h.early a.thread call m (by rw [hp]; rfl) (needs_of_logsBefore hlog hown)
      · exact absurd ((not_owned_of_access hacc).symm.trans hown) (by simp)
      · exact absurd ((not_owned_of_logsAfter hlog).symm.trans hown) (by simp)
      · cases hown
      · cases hown
    exact ⟨by rw [howner, hmine], Or.inr hmine⟩
  | act act' slot hdo hhist' =>
    cases hlabel hhist'
    cases act with
    | acquire m' =>
      cases hown
      obtain ⟨-, hfree, howner, -⟩ := hdo
      exact ⟨by rw [howner, Function.update_self], hfree⟩
    | awake c m' cause =>
      cases hown
      obtain ⟨-, hfree, howner, -⟩ := hdo
      exact ⟨by rw [howner, Function.update_self], Or.inl hfree⟩
    | log => exact hdo.elim
    | _ => cases hown

theorem Owners.step (h : Owners s) (hshape : ∀ t, (s.thr t).pc.Shape cfg) (hstep : Stepped cfg s a s') :
    Owners s' := by
  have hrec := recorded_of_step hstep
  refine ⟨fun t call m hpc hneed => ?_, fun i t act m hat hown => ?_,
    fun i j t u act act' m hij hat hat' hown hown' htu => ?_⟩
  · have hmine : s.owner m = some t := by
      rcases early_of_step hstep hpc with hpc | ⟨rfl, hall⟩
      · exact h.early t call m hpc hneed
      · obtain ⟨op, inst, st, sl⟩ := call
        cases op with
        | mutexUnlock m' =>
          cases hneed
          exact of_decide_eq_true (Bool.and_eq_true_iff.mp hall).2
        | condWait c m' | condTimedwait c m' =>
          cases hneed
          exact of_decide_eq_true (Bool.and_eq_true_iff.mp hall).2
        | _ => cases hneed
    rcases hrec.owner hmine with howner | hhist
    · exact howner
    · -- a thread that releases is behind the operation
      obtain ⟨slot, -, -, call', hpc', hnext⟩ := hrec.performed hhist rfl
      rcases hnext with ⟨-, hp⟩ | ⟨c, depth, -, hp⟩
      · rw [hp] at hpc
        cases hpc
      · rw [hp] at hpc
        cases hpc
  · rcases hrec.at hat with hat | ⟨rfl, rfl, -, hhist⟩
    · rcases h.own i t act m hat hown with howner | ⟨k, hik, hk⟩
      · rcases hrec.owner howner with howner | hhist
        · exact Or.inl howner
        · exact Or.inr ⟨s.hist.length, hat.lt, at_length hhist⟩
      · exact Or.inr ⟨k, hik, hrec.mono hk⟩
    · exact Or.inl (h.new hshape hrec hhist hown).1
  · rcases hrec.at hat' with hj | ⟨rfl, rfl, -, hhist⟩
    · rcases hrec.at hat with hi | ⟨rfl, -⟩
      · obtain ⟨k, hik, hkj, hk⟩ := h.excl i j t u act act' m hij hi hj hown hown' htu
        exact ⟨k, hik, hkj, hrec.mono hk⟩
      · exact absurd (hij.trans hj.lt) (lt_irrefl _)
    · have hi : s.At i t act := (hrec.at hat).resolve_right fun ⟨h, _⟩ => hij.ne h
      rcases h.own i t act m hi hown with howner | ⟨k, hik, hk⟩
      · rcases (h.new hshape hrec hhist hown').2 with hfree | hmine
        · rw [howner] at hfree
          cases hfree
        · exact absurd (Option.some.inj (howner.symm.trans hmine)) htu
      · exact ⟨k, hik, hk.lt, hrec.mono hk⟩

end Interface

end Schnauzer
