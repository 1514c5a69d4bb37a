import Schnauzer.Core.History

/-!
# Labels and their slots

A label of an operation that synchronises is logged by the same thread, in the hook right before it or right
after it. It is not logged where the hooks are off: before the first thread is created, and after `exit`
has been called. A thread that finds them off after an operation never logs again.

## What is proved

* `keeps_other` — a step leaves the labels of the other threads.
* `Phase.step` — what a thread's place says about its latest labels.
-/

namespace Schnauzer

/-- The operations that always leave a label which is logged after. -/
def Op.leavesLabel : Op → Bool
  | .join _ | .mutexLock _ | .condWait _ _ | .condTimedwait _ _ => true
  | _ => false

namespace Interface

open Logger Runs

variable {cfg : Config} {s s' : State} {a : Action}

/-- The labels that are logged before. -/
def Act.logsBefore : Act → LogCall → Prop
  | .spawn _, lc => lc = .startBatch 1
  | .release m, lc => lc = .logSyncOpEvent .unlock m ∨ ∃ c, lc = .logCondWaitEvent m c
  | .signal c _, lc => lc = .logSyncOpEvent .signal c ∨ lc = .logSyncOpEvent .broadcast c
  | _, _ => False

/-- The labels that are logged after. -/
def Act.logsAfter : Act → LogCall → Prop
  | .joined c, lc => lc = .logThreadJoinEvent c
  | .acquire m, lc => lc = .logSyncOpEvent .lock m ∨ lc = .logSyncOpEvent .trylock m
  | .awake c m _, lc => lc = .logCondAwakeEvent m c
  | _, _ => False

/-- Whether a label is logged before. -/
def Act.isBefore : Act → Bool
  | .spawn _ | .release _ | .signal _ _ => true
  | _ => false

/-- Whether a label is logged after. -/
def Act.isAfter : Act → Bool
  | .joined _ | .acquire _ | .awake _ _ _ => true
  | _ => false

namespace State

variable (s)

/-- Thread `t` has done nothing since place `k`, and has not been joined. -/
def Last (t k : ℕ) : Prop := ∀ j u act, s.At j u act → u = t ∨ act = .joined t → j ≤ k

/-- The slots from `n` on are the latest that thread `t` has reserved, for `lc`. -/
def Reserved (t : ℕ) (lc : LogCall) (n : ℕ) : Prop :=
  n < s.log.logSz ∧ s.At (s.place n) t (.log lc n) ∧ s.Last t (s.place n)

/-- The label `i` of an operation is the latest of thread `t` and has no slot. -/
def Open (t : ℕ) (call : Call) (r i : ℕ) : Prop :=
  (∃ act lc, s.At i t act ∧ act.logsAfter lc ∧ call.op.logsAfter r = some lc) ∧ s.rep i = none ∧
    s.Last t i ∧ ∀ I, s.started = some I → I ≤ i

/-- The creation of thread `t` and what it has done lie before `exit`. -/
def Inside (t : ℕ) : Prop := ∀ F, s.finished = some F → ∀ k u act, s.At k u act → act.isLog = false →
  u = t ∨ act = .spawn t → k < F

end State

/-- What the place of thread `t` says about its latest labels. -/
def Phase (s : State) (t : ℕ) : Pc → Prop
  | .before call todo slot => s.Inside t ∧ ∀ lc, call.op.logsBefore = some lc →
      slot = none ∧ .log lc ∈ todo ∨ todo = [] ∧ ∃ n, slot = some n ∧ s.Reserved t lc n
  | .atCall call slot => ∀ lc, call.op.logsBefore = some lc →
      slot = none ∧ (s.started = none ∨ s.finished ≠ none) ∨ ∃ n, slot = some n ∧ s.Reserved t lc n
  | .done call r lab => (∀ i, lab = some i → s.Open t call r i) ∧
      (lab = none → call.op.leavesLabel = false)
  | .after call r todo lab => s.Inside t ∧
      (∀ i, lab = some i → todo ≠ [] ∧ s.Open t call r i ∨
        todo = [] ∧ s.rep i ≠ none ∧ ∃ act, s.At i t act) ∧
      (lab = none → call.op.leavesLabel = false)
  | _ => True

/-- A creation is logged before. -/
theorem State.Open.not_create {t r i : ℕ} {call : Call} (h : s.Open t call r i) : call.op ≠ .create := by
  intro hc
  obtain ⟨⟨act, lc, -, hact, hop⟩, -⟩ := h
  rw [hc] at hop
  cases hop
  cases act with
  | acquire => rcases hact with hact | hact <;> cases hact
  | _ => cases hact

/-! ### What a step keeps for a thread -/

/-- Nothing has happened to thread `t`. -/
structure Keeps (s s' : State) (t : ℕ) : Prop where
  at_of : ∀ k u act, s'.At k u act → u = t ∨ act = .joined t ∨ act = .spawn t → s.At k u act
  at_mono : ∀ k u act, s.At k u act → s'.At k u act
  place : ∀ n < s.log.logSz, s'.place n = s.place n
  size : s.log.logSz ≤ s'.log.logSz
  rep : ∀ i act, s.At i t act → s'.rep i = s.rep i
  started : s'.started = s.started
  finished : s'.finished = s.finished ∨ s'.finished = some (s.finished.getD s.hist.length)

section Keeps

variable {t : ℕ} (hk : Keeps s s' t)

include hk

theorem Keeps.inside (h : s.Inside t) : s'.Inside t := by
  intro F hF k u act hat hlog hrel
  have hat' := hk.at_of k u act hat (hrel.imp_right Or.inr)
  rcases hk.finished with heq | heq
  · exact h F (heq ▸ hF) k u act hat' hlog hrel
  · rw [heq] at hF
    cases hfin : s.finished with
    | none =>
      rw [hfin] at hF
      cases hF
      exact hat'.lt
    | some F' =>
      rw [hfin] at hF
      cases hF
      exact h _ hfin k u act hat' hlog hrel

theorem Keeps.last {k : ℕ} (h : s.Last t k) : s'.Last t k := by
  intro j u act hat hrel
  exact h j u act (hk.at_of j u act hat (hrel.imp_right Or.inl)) hrel

theorem Keeps.reserved {lc : LogCall} {n : ℕ} (h : s.Reserved t lc n) : s'.Reserved t lc n := by
  obtain ⟨hn, hat, hlast⟩ := h
  rw [← hk.place n hn] at hat hlast
  exact ⟨hn.trans_le hk.size, hk.at_mono _ _ _ hat, hk.last hlast⟩

theorem Keeps.open {call : Call} {r i : ℕ} (h : s.Open t call r i) : s'.Open t call r i := by
  obtain ⟨⟨act, lc, hat, hact, hop⟩, hrep, hlast, hst⟩ := h
  refine ⟨⟨act, lc, hk.at_mono _ _ _ hat, hact, hop⟩, ?_, hk.last hlast, ?_⟩
  · rw [hk.rep i act hat, hrep]
  · rw [hk.started]
    exact hst

theorem Keeps.finished_ne (h : s.finished ≠ none) : s'.finished ≠ none := by
  rcases hk.finished with heq | heq
  · rw [heq]
    exact h
  · rw [heq]
    exact Option.some_ne_none _

theorem Keeps.phase {pc : Pc} (h : Phase s t pc) : Phase s' t pc := by
  cases pc with
  | before call todo slot =>
    refine ⟨hk.inside h.1, fun lc hlc => (h.2 lc hlc).imp_right ?_⟩
    rintro ⟨htodo, n, hslot, hres⟩
    exact ⟨htodo, n, hslot, hk.reserved hres⟩
  | atCall call slot =>
    intro lc hlc
    refine (h lc hlc).imp ?_ ?_
    · rintro ⟨hslot, hoff⟩
      refine ⟨hslot, hoff.imp ?_ hk.finished_ne⟩
      rw [hk.started]
      exact id
    · rintro ⟨n, hslot, hres⟩
      exact ⟨n, hslot, hk.reserved hres⟩
  | done call r lab => exact ⟨fun i hi => hk.open (h.1 i hi), h.2⟩
  | after call r todo lab =>
    refine ⟨hk.inside h.1, fun i hi => ?_, h.2.2⟩
    rcases h.2.1 i hi with ⟨htodo, hopen⟩ | ⟨htodo, hrep, act, hat⟩
    · exact Or.inl ⟨htodo, hk.open hopen⟩
    · exact Or.inr ⟨htodo, by rwa [hk.rep i act hat], act, hk.at_mono _ _ _ hat⟩
  | _ => trivial

end Keeps

theorem Recorded.place_eq (h : Recorded s a s') {n : ℕ} (hn : n < s.log.logSz) : s'.place n = s.place n := by
  cases h with
  | same _ hplace => rw [hplace]
  | log _ _ _ hplace =>
    rw [hplace]
    exact if_neg (not_le.mpr hn)
  | act _ _ _ _ hplace => rw [hplace]

theorem Recorded.logSz_le (h : Recorded s a s') : s.log.logSz ≤ s'.log.logSz := by
  cases h with
  | same _ _ _ hsz => exact hsz.ge
  | log _ hsz => exact hsz.le
  | act _ _ _ _ _ _ hsz => exact hsz.ge

theorem finished_keeps (hstep : Stepped cfg s a s') :
    s'.finished = s.finished ∨ s'.finished = some (s.finished.getD s.hist.length) :=
  (finished_of_step hstep).imp_right And.left

/-- A step of the thread that adds no label. -/
theorem keeps_self (hstep : Stepped cfg s a s') (hhist : s'.hist = s.hist) (hrec : Recorded s a s')
    (hst : s'.started = s.started) (t : ℕ) : Keeps s s' t := by
  have hat : ∀ k u act, s'.At k u act ↔ s.At k u act := fun k u act => by unfold State.At; rw [hhist]
  refine ⟨fun k u act h _ => (hat k u act).mp h, fun k u act h => (hat k u act).mpr h,
    fun n hn => hrec.place_eq hn, hrec.logSz_le, fun i act h => ?_, hst, finished_keeps hstep⟩
  cases hrec with
  | same _ _ hrep => rw [hrep]
  | log _ _ hhist' =>
    have hlen := congrArg List.length (hhist.symm.trans hhist')
    simp at hlen
  | act _ _ _ hhist' =>
    have hlen := congrArg List.length (hhist.symm.trans hhist')
    simp at hlen

/-- A step in a hook that reserves nothing. -/
theorem keeps_of_hooked (hstep : Stepped cfg s a s') (hhook : (s.thr a.thread).pc.hooked)
    (hsz : s'.log.logSz = s.log.logSz) (t : ℕ) : Keeps s s' t := by
  have hrec := recorded_of_step hstep
  refine keeps_self hstep (hrec.hist_eq hhook hsz) hrec ?_ t
  rcases started_of_step hstep with heq | ⟨-, -, u, call, rfl, -, hidle⟩
  · exact heq
  · rw [show (s.thr (Action.call u call).thread).pc = .idle from hidle] at hhook
    cases hhook

/-- The label that a hook logs is of the hook's thread. -/
theorem Phase.lab {t i : ℕ} {pc next : Pc} {call : Call} {stmt : Stmt} (h : Phase s t pc)
    (hpc : pc.head = some (call, stmt, next)) (hlab : next.lab = some i) :
    ∃ r, s.Open t call r i := by
  rcases Pc.head_cases hpc with ⟨todo, slot, rfl, rfl⟩ | ⟨r, todo, lab, rfl, rfl⟩
  · cases hlab
  · rcases h.2.1 i hlab with ⟨-, hopen⟩ | ⟨hnil, -⟩
    · exact ⟨r, hopen⟩
    · cases hnil

/-- A step of another thread. -/
theorem keeps_other (hstart : Start s) (hstep : Stepped cfg s a s') (hrec : Recorded s a s')
    (hphase : Phase s a.thread (s.thr a.thread).pc) {t : ℕ} (ht : t ≠ a.thread)
    (hbusy : (s.thr t).pc.busy) : Keeps s s' t := by
  refine ⟨fun k u act hat hrel => ?_, fun k u act h => hrec.mono h, fun n hn => hrec.place_eq hn,
    hrec.logSz_le, fun i act hat => ?_, ?_, finished_keeps hstep⟩
  · rcases hrec.at hat with hat | ⟨rfl, rfl, -, hhist⟩
    · exact hat
    · rcases hrel with rfl | rfl | rfl
      · exact absurd rfl ht
      · obtain ⟨slot, -, hend, -⟩ := hrec.performed hhist rfl
        rw [hend] at hbusy
        exact absurd rfl hbusy
      · obtain ⟨slot, rfl, -⟩ := hrec.performed hhist rfl
        rw [hstart.absent _ le_rfl] at hbusy
        exact absurd rfl hbusy
  · cases hrec with
    | same _ _ hrep => rw [hrep]
    | @log call lc next hpc hsz hhist hplace hrep =>
      cases hlab : next.lab with
      | none => rw [hrep, hlab]
      | some j =>
        obtain ⟨r, ⟨act', lc', hat', -⟩, -⟩ := hphase.lab hpc hlab
        have hij : i ≠ j := by
          rintro rfl
          exact ht (hat.unique hat').1
        rw [hrep, hlab]
        exact Function.update_of_ne hij _ _
    | act _ _ _ _ _ hrep =>
      rw [hrep]
      exact Function.update_of_ne hat.lt.ne _ _
  · refine (hstart.started_of_ne hstep ht).resolve_right fun hab => ?_
    rw [hab] at hbusy
    exact hbusy rfl

/-- A thread that is in no operation says nothing. -/
theorem phase_of_not_busy {t : ℕ} {pc : Pc} (h : ¬ pc.busy) : Phase s t pc := by
  cases pc <;> first | trivial | exact absurd (Option.some_ne_none _) h

/-! ### Calls of the logger -/

/-- A call that no `assert` stops. -/
theorem form_of_exec {t : ℕ} {call : Call} {lc : LogCall} {log : LogState} {l : LogLocal}
    (hen : cfg.log.enable = true) (hab : log.aborted = none)
    (hlog : Logger.exec cfg.log call.isOnStack call.inst t s.log (s.thr t).log lc = (log, l)) :
    Form call.inst t lc s.log (s.thr t).log log l := by
  have hform := @exec_form cfg.log call.isOnStack call.inst t s.log (s.thr t).log lc hen (by rw [hlog]; exact hab)
  rwa [hlog] at hform

/-- **What synchronises is logged**: the call reserves slots. -/
theorem LogInv.lt_of_isSync (h : LogInv s) (hen : cfg.log.enable = true)
    (hshape : ∀ t, (s.thr t).pc.Shape cfg) {t : ℕ} {call : Call} {lc : LogCall} {next : Pc} {log : LogState}
    {l : LogLocal} (hpc : (s.thr t).pc.head = some (call, .log lc, next)) (hlc : lc.isSync)
    (hab : log.aborted = none)
    (hlog : Logger.exec cfg.log call.isOnStack call.inst t s.log (s.thr t).log lc = (log, l)) :
    s.log.logSz < log.logSz := by
  refine (form_of_exec hen hab hlog).lt_of_isSync hlc (missing_eq_none.mp ?_)
  have hp := h.place t
  rcases (hshape t).log hpc with ⟨todo, slot, heq, -, ⟨hop, rfl⟩ | ⟨-, hacc⟩⟩ |
    ⟨r, todo, lab, heq, -, ⟨hop, hlogs, rfl⟩ | ⟨-, ⟨rfl, -⟩ | ⟨rfl, -⟩⟩⟩
  · rw [heq] at hp
    apply missing_of_isSync hlc hp
    by_cases hcreate : call.op = .create
    · rw [hcreate] at hop
      cases hop
      exact Or.inl rfl
    · exact Or.inr (batch_eq_none hcreate)
  · rw [not_isSync_of_access hacc] at hlc
    cases hlc
  · rw [heq] at hp
    exact missing_of_isSync hlc hp (Or.inr rfl)
  · cases hlc
  · cases hlc

/-! ### Phases -/

theorem last_length {t u : ℕ} {act : Act} (hhist : s'.hist = s.hist ++ [⟨u, act⟩]) : s'.Last t s.hist.length := by
  intro j w act' hat _
  have hlt := hat.lt
  rw [hhist, List.length_append, List.length_singleton] at hlt
  exact Nat.lt_succ_iff.mp hlt

/-- Behind an operation. -/
theorem phase_of_act {t : ℕ} {act : Act} {slot : Option ℕ} (hdo : Performed s t slot s' act)
    (hhist : s'.hist = s.hist ++ [⟨t, act⟩]) (hrep : s'.rep = Function.update s.rep s.hist.length slot)
    (hflag : ∀ I, s'.started = some I → I ≤ s.hist.length) : Phase s' t (s'.thr t).pc := by
  have hopen : ∀ (lc : LogCall) {call : Call} {r : ℕ}, slot = none → act.logsAfter lc →
      call.op.logsAfter r = some lc → ∀ i, nextLab s = some i → s'.Open t call r i := by
    intro lc call r hslot hact hop i hi
    cases hi
    refine ⟨⟨act, lc, at_length hhist, hact, hop⟩, ?_, last_length hhist, hflag⟩
    rw [hrep, Function.update_self, hslot]
  have hnone : ∀ {call : Call} {r : ℕ}, ∀ i, none = some i → s'.Open t call r i := by
    intro call r i h
    cases h
  cases act with
  | log => exact hdo.elim
  | spawn c =>
    obtain ⟨-, -, -, call, -, hop, hpc⟩ := hdo
    rw [hpc]
    exact ⟨hnone, fun _ => by rw [hop]; rfl⟩
  | joined c =>
    obtain ⟨hslot, -, -, call, slot', -, hop, hpc⟩ := hdo
    rw [hpc]
    exact ⟨hopen (.logThreadJoinEvent c) hslot rfl (by rw [hop]; rfl), (by intro h; cases h)⟩
  | acquire m =>
    obtain ⟨hslot, -, -, call, slot', -, hop, hpc⟩ := hdo
    rw [hpc]
    refine ⟨?_, (by intro h; cases h)⟩
    obtain ⟨op, inst, st, sl⟩ := call
    cases op with
    | mutexLock m' =>
      cases hop
      exact hopen (.logSyncOpEvent .lock m) hslot (Or.inl rfl) rfl
    | mutexTrylock m' =>
      cases hop
      exact hopen (.logSyncOpEvent .trylock m) hslot (Or.inr rfl) rfl
    | _ => cases hop
  | release m =>
    obtain ⟨-, -, call, -, ⟨hop, hpc⟩ | ⟨c, depth, -, hpc⟩⟩ := hdo
    · rw [hpc]
      exact ⟨hnone, fun _ => by rw [hop]; rfl⟩
    · rw [hpc]
      trivial
  | signal c i =>
    obtain ⟨-, -, call, -, hop, hpc⟩ := hdo
    rw [hpc]
    refine ⟨hnone, fun _ => ?_⟩
    obtain ⟨op, inst, st, sl⟩ := call
    cases op <;> first | rfl | cases hop
  | awake c m cause =>
    obtain ⟨hslot, -, -, call, depth, -, hop, hpc⟩ := hdo
    rw [hpc]
    refine ⟨hopen (.logCondAwakeEvent m c) hslot rfl ?_, (by intro h; cases h)⟩
    obtain ⟨op, inst, st, sl⟩ := call
    cases op <;> first
      | (cases hop; rfl)
      | cases hop
  | rdlock | wrlock | rdunlock | wrunlock =>
    obtain ⟨-, -, call, slot', -, hop, hpc⟩ := hdo
    rw [hpc]
    refine ⟨hnone, fun _ => ?_⟩
    obtain ⟨op, inst, st, sl⟩ := call
    cases op <;> first | rfl | cases hop

/-- Behind a reservation. -/
theorem phase_of_log {t : ℕ} {call : Call} {lc : LogCall} {next : Pc} (hshape : ∀ t, (s.thr t).pc.Shape cfg)
    (hpc : (s.thr t).pc.head = some (call, .log lc, next)) (hsz : s.log.logSz < s'.log.logSz)
    (hhist : s'.hist = s.hist ++ [⟨t, .log lc s.log.logSz⟩])
    (hplace : s'.place = fun k => if s.log.logSz ≤ k then s.hist.length else s.place k)
    (hrep : s'.rep = match next.lab with
      | some i => Function.update s.rep i (some s.log.logSz)
      | none => s.rep)
    (hfin : s'.finished = s.finished) (h : Phase s t (s.thr t).pc) :
    Phase s' t (next.took s.log.logSz) := by
  have hinside : s.Inside t → s'.Inside t := by
    intro hin F hF k u act hat hlog hrel
    rcases (at_append hhist).mp hat with hat | ⟨-, -, rfl⟩
    · exact hin F (hfin ▸ hF) k u act hat hlog hrel
    · cases hlog
  have hres : s'.Reserved t lc s.log.logSz := by
    have hp : s'.place s.log.logSz = s.hist.length := by
      rw [hplace]
      exact if_pos le_rfl
    refine ⟨hsz, ?_, ?_⟩
    · rw [hp]
      exact at_length hhist
    · rw [hp]
      exact last_length hhist
  rcases (hshape t).log hpc with ⟨todo, slot, heq, rfl, hlogs⟩ | ⟨r, todo, lab, heq, rfl, hlogs⟩
  · rw [heq] at h
    refine ⟨hinside h.1, fun lc' hlc' => Or.inr ?_⟩
    rcases hlogs with ⟨hop, rfl⟩ | ⟨hop, -⟩
    · obtain rfl : lc = lc' := Option.some.inj (hop.symm.trans hlc')
      rcases h.2 lc hop with ⟨rfl, -⟩ | ⟨hnil, -⟩
      · exact ⟨rfl, _, rfl, hres⟩
      · cases hnil
    · exact absurd (hop.symm.trans hlc') (by simp)
  · rw [heq] at h
    refine ⟨hinside h.1, fun i hi => ?_, h.2.2⟩
    have hopen : s.Open t call r i := by
      rcases h.2.1 i hi with ⟨-, hopen⟩ | ⟨hnil, -⟩
      · exact hopen
      · cases hnil
    have hcreate := hopen.not_create
    obtain ⟨⟨act, lc', hat, -⟩, -⟩ := hopen
    rcases hlogs with ⟨hop, hlog, rfl⟩ | ⟨hop, -⟩
    · refine Or.inr ⟨rfl, ?_, act, (at_append hhist).mpr (Or.inl hat)⟩
      have hlab : (Pc.after call r [] lab).lab = some i := hi
      rw [hrep, hlab]
      simp
    · exact absurd hop hcreate

/-- A call of the scheduler is behind the thread. -/
theorem Phase.skip {t : ℕ} {call : Call} {c : ScsCall} {next : Pc} (hshape : (s.thr t).pc.Shape cfg)
    (hpc : (s.thr t).pc.head = some (call, .scs c, next)) (h : Phase s t (s.thr t).pc) : Phase s t next := by
  rcases Pc.head_cases hpc with ⟨todo, slot, heq, rfl⟩ | ⟨r, todo, lab, heq, rfl⟩
  · rw [heq] at h
    refine ⟨h.1, fun lc hlc => ?_⟩
    rcases h.2 lc hlc with ⟨hslot, hmem⟩ | ⟨hnil, -⟩
    · exact Or.inl ⟨hslot, (List.mem_cons.mp hmem).resolve_left (by simp)⟩
    · cases hnil
  · rw [heq] at h hshape
    refine ⟨h.1, fun i hi => Or.inl ?_, h.2.2⟩
    rcases h.2.1 i hi with ⟨-, hopen⟩ | ⟨hnil, -⟩
    · refine ⟨?_, hopen⟩
      rintro rfl
      have hcreate := hopen.not_create
      obtain ⟨⟨act, lc, -, -, hop⟩, -⟩ := hopen
      obtain ⟨c', hc'⟩ := Call.after_of_logs hop hcreate
      simp only [Pc.Shape, hc'] at hshape
      rcases suffix_pair hshape with ⟨-, hnil⟩ | ⟨hc, -⟩
      · cases hnil
      · cases hc
    · cases hnil

/-- A call of the logger that has logged nothing. -/
theorem Phase.logOff {t : ℕ} {call : Call} {lc : LogCall} {next : Pc} (hshape : (s.thr t).pc.Shape cfg)
    (hpc : (s.thr t).pc.head = some (call, .log lc, next)) (hsync : lc.isSync = false)
    (h : Phase s t (s.thr t).pc) : Phase s t next := by
  rcases hshape.log hpc with ⟨todo, slot, heq, rfl, ⟨hop, -⟩ | ⟨hop, -⟩⟩ |
    ⟨r, todo, lab, heq, rfl, ⟨hop, hlogs, -⟩ | ⟨hop, -⟩⟩
  · rw [isSync_of_logsBefore hop] at hsync
    cases hsync
  · rw [heq] at h
    exact ⟨h.1, fun lc' hlc' => absurd (hop.symm.trans hlc') (by simp)⟩
  · rw [isSync_of_logsAfter hlogs hop] at hsync
    cases hsync
  · rw [heq] at h
    refine ⟨h.1, fun i hi => ?_, h.2.2⟩
    rcases h.2.1 i hi with ⟨-, hopen⟩ | ⟨hnil, -⟩
    · exact absurd hop hopen.not_create
    · cases hnil

/-- A step that adds no label. -/
theorem Phase.same (hinv : LogInv s) (hen : cfg.log.enable = true) (hshape : ∀ t, (s.thr t).pc.Shape cfg)
    (hstep : Stepped cfg s a s') (hab : s'.log.aborted = none) (hhist : s'.hist = s.hist)
    (h : Phase s a.thread (s.thr a.thread).pc) : Phase s' a.thread (s'.thr a.thread).pc := by
  have hrec := recorded_of_step hstep
  have hkeep : s'.started = s.started → Keeps s s' a.thread := fun hst => keeps_self hstep hhist hrec hst _
  have hnot : ∀ {pc : Pc}, ¬ pc.busy → Phase s' a.thread pc := phase_of_not_busy
  have hlong : ∀ {l : Label}, s.hist ++ [l] ≠ s.hist := fun h => by simp at h
  cases hstep with
  | @call t call hpc hall =>
    simp only [Action.thread] at h hnot ⊢
    have hfin := enter_finished cfg s t call
    rcases enter_pc cfg s t call with ⟨hpc', -, hf⟩ | ⟨hpc', hoff⟩
    · rw [hpc']
      refine ⟨fun F hF => ?_, fun lc hlc => Or.inl ⟨rfl, ?_⟩⟩
      · rw [hfin, hf] at hF
        cases hF
      · obtain ⟨c, hc⟩ := Call.before_of_logs cfg.log hlc
        simp [hc]
    · rw [hpc']
      exact fun lc _ => Or.inl ⟨rfl, by rw [hfin]; exact hoff⟩
  | @skip t call c next hpend hpc =>
    simp only [Action.thread, State.setPc_self] at h hkeep ⊢
    apply (hkeep rfl).phase
    exact h.skip (hshape t) hpc
  | @log t call lc next log l hpend hpc hlog hsz =>
    simp only [Action.thread, State.setPc_self] at h hkeep ⊢
    apply (hkeep rfl).phase
    have hsync : lc.isSync = false := by
      by_contra hne
      exact absurd (hinv.lt_of_isSync hen hshape hpc (by simpa using hne) hab hlog) (not_lt.mpr hsz)
    exact h.logOff (hshape t) hpc hsync
  | @store t log l hlog =>
    have hpc : ((s.setLog t log l).thr t).pc = (s.thr t).pc := by simp [State.setLog]
    simp only [Action.thread] at h hkeep ⊢
    rw [hpc]
    exact (hkeep rfl).phase h
  | @atCall t call slot hpend hpc =>
    simp only [Action.thread, State.setPc_self] at h hkeep ⊢
    apply (hkeep rfl).phase
    rw [hpc] at h
    intro lc hlc
    rcases h.2 lc hlc with ⟨-, hmem⟩ | ⟨-, hres⟩
    · cases hmem
    · exact Or.inr hres
  | @plain t call slot x hpc hop =>
    simp only [Action.thread, State.setPc_self]
    refine ⟨(by intro i hi; cases hi), fun _ => ?_⟩
    obtain ⟨op, inst, st, sl⟩ := call
    cases op <;> first | rfl | cases hop
  | @second t call r lab hpc =>
    simp only [Action.thread, State.setPc_self] at h hkeep ⊢
    apply (hkeep rfl).phase
    split_ifs with hneed
    · rw [hpc] at h
      have hfin : s.finished = none := by simpa using (Bool.and_eq_true_iff.mp hneed).2
      have hin : s.Inside t := fun F hF => absurd (hfin.symm.trans hF) (by simp)
      refine ⟨hin, fun i hi => Or.inl ⟨?_, h.1 i hi⟩, h.2⟩
      intro hnil
      obtain ⟨⟨act, lc, -, -, hop⟩, -⟩ := h.1 i hi
      obtain ⟨c, hc⟩ := Call.after_of_logs hop (h.1 i hi).not_create
      rw [hc] at hnil
      cases hnil
    · trivial
  | @exit t hpc hc =>
    simp only [Action.thread, beforeExit, State.setPc_self]
    split_ifs
    trivial
  | @flush t i hpc =>
    simp only [Action.thread] at h ⊢
    exact flushRound_place hpc (fun _ => trivial) trivial
  | idle | leave | finish =>
    simp only [Action.thread, State.setPc_self]
    trivial
  | _ => exact absurd hhist hlong

/-- **One step**: what the place of each thread says. -/
theorem Phase.step (hinv : LogInv s) (hen : cfg.log.enable = true) (hshape : ∀ t, (s.thr t).pc.Shape cfg)
    (hflag : ∀ I, s'.started = some I → I ≤ s.hist.length)
    (hstep : Stepped cfg s a s') (hab : s'.log.aborted = none) (h : ∀ t, Phase s t (s.thr t).pc) (t : ℕ) :
    Phase s' t (s'.thr t).pc := by
  have hrec := recorded_of_step hstep
  by_cases ht : t = a.thread
  · subst ht
    have hrec' := hrec
    cases hrec' with
    | same hhist => exact (h _).same hinv hen hshape hstep hab hhist
    | log hpc hsz hhist hplace hrep howner hnext =>
      rw [hnext]
      refine phase_of_log hshape hpc hsz hhist hplace hrep ?_ (h _)
      refine (finished_of_step hstep).resolve_right fun hset => ?_
      have hlen := congrArg List.length (hhist.symm.trans hset.2)
      simp at hlen
    | act act slot hdo hhist hplace hrep => exact phase_of_act hdo hhist hrep hflag
  · rcases thr_of_ne hstep ht with heq | ⟨-, -, -, heq⟩ | ⟨call, depth, i, hw, heq⟩
    · rw [heq]
      by_cases hbusy : (s.thr t).pc.busy
      · exact (keeps_other hinv.start hstep hrec (h _) ht hbusy).phase (h t)
      · exact phase_of_not_busy hbusy
    · rw [heq]
      trivial
    · rw [heq]
      trivial

end Interface

end Schnauzer
