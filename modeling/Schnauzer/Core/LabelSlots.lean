import Schnauzer.Core.Labels

/-!
# The slot of each label

Over whole runs: a label has its slot at the log label right before it or right behind it (`LoggedBy`), unless
the hooks are off.

## What is proved

* `Labels.step` — what relates the labels to the slots is kept by every step.
-/

namespace Schnauzer.Interface

open Logger Runs

variable {cfg : Config} {s s' : State} {a : Action}

/-- The label that a thread is behind. -/
def Pc.label : Pc → Option ℕ
  | .done _ _ lab | .after _ _ _ lab => lab
  | _ => none

namespace State

variable (s)

/-- The hooks are off at place `k`. -/
def Off (k : ℕ) : Prop := (∀ I, s.started = some I → k < I) ∨ ∃ F, s.finished = some F ∧ F ≤ k

/-- Thread `t` has found the hooks off behind label `i`, since `exit` was called. -/
def Late (t i : ℕ) : Prop := ∃ F, s.finished = some F ∧ (s.thr t).pc.hooked = false ∧
  ∀ j u act, i < j → s.At j u act → u = t ∨ act = .joined t → F ≤ j ∧ act.isLog = false

/-- Slot `n` is the first that was reserved for label `i`, with nothing of the thread in between. -/
def LoggedBy (i n : ℕ) : Prop := ∃ t act lc, s.At i t act ∧ n < s.log.logSz ∧ s.At (s.place n) t (.log lc n) ∧
  (∃ I, s.started = some I ∧ I ≤ i) ∧
    (act.logsBefore lc ∧ s.place n < i ∧ (∀ j act', s.At j t act' → j ≤ s.place n ∨ i ≤ j) ∨
      act.logsAfter lc ∧ i < s.place n ∧
        ∀ j u act', s.At j u act' → u = t ∨ act' = .joined t → j ≤ i ∨ s.place n ≤ j)

/-- Thread `t` is in front of the operation for which it has reserved the slots from `n` on. -/
def InFront (t : ℕ) (lc : LogCall) (n : ℕ) : Prop := ∃ call, call.op.logsBefore = some lc ∧
  ((s.thr t).pc = .before call [] (some n) ∨ (s.thr t).pc = .atCall call (some n))

end State

/-- The labels and their slots. -/
structure Labels (s : State) : Prop where
  start : ∀ I, s.started = some I → I ≤ s.hist.length
  finish : ∀ F, s.finished = some F → F ≤ s.hist.length
  /-- Nothing is logged before the start. -/
  logged : ∀ q t lc f, s.At q t (.log lc f) → ∃ I, s.started = some I ∧ I ≤ q
  /-- What a thread did before it logs lies before `exit`. -/
  inside : ∀ q t lc f, s.At q t (.log lc f) → ∀ F, s.finished = some F → ∀ k u act, k < q → s.At k u act →
    act.isLog = false → u = t ∨ act = .spawn t → k < F
  rep : ∀ i n, s.rep i = some n → s.LoggedBy i n
  before : ∀ i t act, s.At i t act → act.isBefore → s.rep i = none → s.Off i
  after : ∀ i t act, s.At i t act → act.isAfter → s.rep i = none →
    (s.thr t).pc.label = some i ∨ (∀ I, s.started = some I → i < I) ∨ s.Late t i
  /-- A slot that is reserved before an operation gets its label. -/
  front : ∀ p t lc f, s.At p t (.log lc f) → (∃ op : Op, op.logsBefore = some lc) →
    (∃ i, s.rep i = some f) ∨ s.InFront t lc f
  /-- A slot that is reserved after a join or a wait has one. -/
  behind : ∀ p t lc f, s.At p t (.log lc f) →
    (∃ c, lc = .logThreadJoinEvent c) ∨ (∃ m c, lc = .logCondAwakeEvent m c) → ∃ i, s.rep i = some f

theorem Labels.init : Labels init where
  start := fun I h => by cases h
  finish := fun F h => by cases h
  logged := fun q t lc f h => by cases h
  inside := fun q t lc f h => by cases h
  rep := fun i n h => by cases h
  before := fun i t act h => by cases h
  after := fun i t act h => by cases h
  front := fun p t lc f h => by cases h
  behind := fun p t lc f h => by cases h

/-! ### Flags -/

theorem started_some (hstep : Stepped cfg s a s') {I : ℕ} (h : s.started = some I) : s'.started = some I := by
  rcases started_of_step hstep with heq | ⟨hs, -⟩
  · rw [heq, h]
  · rw [hs] at h
    cases h

theorem started_le (hstep : Stepped cfg s a s') (h : ∀ I, s.started = some I → I ≤ s.hist.length) :
    ∀ I, s'.started = some I → I ≤ s.hist.length := by
  intro I hI
  rcases started_of_step hstep with heq | ⟨-, heq, -⟩
  · exact h I (heq ▸ hI)
  · rw [heq] at hI
    cases hI
    exact le_rfl

theorem finished_some (hstep : Stepped cfg s a s') {F : ℕ} (h : s.finished = some F) : s'.finished = some F := by
  rcases finished_of_step hstep with heq | ⟨heq, -⟩
  · rw [heq, h]
  · rw [heq, h]
    rfl

/-- The second flag is set to the length of the history. -/
theorem finished_eq (hstep : Stepped cfg s a s') {F : ℕ} (h : s'.finished = some F) :
    s.finished = some F ∨ F = s.hist.length := by
  rcases finished_of_step hstep with heq | ⟨heq, -⟩
  · exact Or.inl (heq ▸ h)
  · rw [heq] at h
    cases hfin : s.finished with
    | none =>
      rw [hfin] at h
      cases h
      exact Or.inr rfl
    | some F' =>
      rw [hfin] at h
      exact Or.inl h

theorem off_step (hstep : Stepped cfg s a s') {k : ℕ} (hk : k < s.hist.length) (h : s.Off k) : s'.Off k := by
  rcases h with h | ⟨F, hF, hle⟩
  · apply Or.inl
    intro I hI
    rcases started_of_step hstep with heq | ⟨-, heq, -⟩
    · exact h I (heq ▸ hI)
    · rw [heq] at hI
      cases hI
      exact hk
  · exact Or.inr ⟨F, finished_some hstep hF, hle⟩

/-- A hook begins only before `exit`. -/
theorem hooked_of_step (hstep : Stepped cfg s a s') {t : ℕ} (h : (s'.thr t).pc.hooked) :
    (s.thr t).pc.hooked ∨ s.finished = none := by
  by_cases ht : t = a.thread
  swap
  · rcases thr_of_ne hstep ht with heq | ⟨-, -, -, heq⟩ | ⟨call, depth, i, -, heq⟩
    · rw [heq] at h
      exact Or.inl h
    · rw [heq] at h
      cases h
    · rw [heq] at h
      cases h
  subst ht
  cases hstep with
  | @call t call hpc hall =>
    simp only [Action.thread] at h
    rcases enter_pc cfg s t call with ⟨-, -, hf⟩ | ⟨hpc', -⟩
    · exact Or.inr hf
    · rw [hpc'] at h
      cases h
  | skip hpend hpc => exact Or.inl (Pc.hooked_of_head hpc)
  | log hpend hpc => exact Or.inl (Pc.hooked_of_head hpc)
  | reserve hpend hpc => exact Or.inl (Pc.hooked_of_head hpc)
  | @store t log l hlog => exact Or.inl (by simpa [Action.thread, State.setLog] using h)
  | @second t call r lab hpc =>
    simp only [Action.thread, State.setPc_self] at h
    split_ifs at h with hneed
    · exact Or.inr (by simpa using (Bool.and_eq_true_iff.mp hneed).2)
    · cases h
  | @exit t hpc hc =>
    simp only [Action.thread, beforeExit, State.setPc_self] at h
    split_ifs at h <;> cases h
  | @flush t i hpc =>
    simp only [Action.thread] at h
    exact absurd h (flushRound_place (P := fun pc => ¬ pc.hooked) hpc (fun _ hc => by cases hc) (fun hc => by cases hc))
  | _ =>
    simp only [Action.thread, State.setPc_self] at h
    cases h

/-! ### The new label -/

/-- A reservation, at a label that is new. -/
theorem Recorded.reserved (h : Recorded s a s') {t f : ℕ} {lc : LogCall}
    (hhist : s'.hist = s.hist ++ [⟨t, .log lc f⟩]) : t = a.thread ∧ f = s.log.logSz ∧
      s.log.logSz < s'.log.logSz ∧ s'.place s.log.logSz = s.hist.length ∧ ∃ call next,
        (s.thr t).pc.head = some (call, .log lc, next) ∧ (s'.thr t).pc = next.took s.log.logSz ∧
          ∀ i, next.lab = some i → s'.rep i = some s.log.logSz := by
  have hlabel : ∀ {l : Label}, s'.hist = s.hist ++ [l] → l = ⟨t, .log lc f⟩ := fun h =>
    List.singleton_inj.mp (List.append_cancel_left (h.symm.trans hhist))
  cases h with
  | same hhist' =>
    have hlen := congrArg List.length (hhist'.symm.trans hhist)
    simp at hlen
  | @log call lc' next hpc hsz hhist' hplace hrep howner hnext =>
    cases hlabel hhist'
    refine ⟨rfl, rfl, hsz, ?_, call, next, hpc, hnext, fun i hi => ?_⟩
    · rw [hplace]
      exact if_pos le_rfl
    · rw [hrep, hi]
      simp
  | act act slot hdo hhist' =>
    cases hlabel hhist'
    exact hdo.elim

/-- What a label that is logged before leaves. -/
theorem Performed.before {t : ℕ} {slot : Option ℕ} {act : Act} (h : Performed s t slot s' act)
    (hact : act.isBefore) :
    ∃ call lc, (s.thr t).pc = .atCall call slot ∧ call.op.logsBefore = some lc ∧ act.logsBefore lc := by
  cases act with
  | spawn c =>
    obtain ⟨-, -, -, call, hpc, hop, -⟩ := h
    exact ⟨call, _, hpc, by rw [hop]; rfl, rfl⟩
  | release m =>
    obtain ⟨-, -, call, hpc, ⟨hop, -⟩ | ⟨c, depth, hop, -⟩⟩ := h
    · exact ⟨call, _, hpc, by rw [hop]; rfl, Or.inl rfl⟩
    · refine ⟨call, .logCondWaitEvent m c, hpc, ?_, Or.inr ⟨c, rfl⟩⟩
      obtain ⟨op, inst, st, sl⟩ := call
      cases op <;> first
        | (cases hop; rfl)
        | cases hop
  | signal c i =>
    obtain ⟨-, -, call, hpc, hop, -⟩ := h
    obtain ⟨op, inst, st, sl⟩ := call
    cases op with
    | condSignal c' =>
      cases hop
      exact ⟨_, _, hpc, rfl, Or.inl rfl⟩
    | condBroadcast c' =>
      cases hop
      exact ⟨_, _, hpc, rfl, Or.inr rfl⟩
    | _ => cases hop
  | _ => cases hact

/-- A label that is not logged before has no slot yet; its thread was in front of an operation that is not
logged before, or in a wait. -/
theorem Performed.not_before {t : ℕ} {slot : Option ℕ} {act : Act} (h : Performed s t slot s' act)
    (hact : act.isBefore = false) :
    slot = none ∧ ∀ call slot', (s.thr t).pc = .atCall call slot' → call.op.logsBefore = none := by
  have hop : ∀ {call call' : Call} {slot' slot'' : Option ℕ}, (s.thr t).pc = .atCall call slot' →
      (s.thr t).pc = .atCall call' slot'' → call = call' := fun h h' => by
    cases h.symm.trans h'
    rfl
  cases act with
  | log => exact h.elim
  | spawn | release | signal => cases hact
  | joined =>
    obtain ⟨hslot, -, -, call, slot', hpc, hop', -⟩ := h
    refine ⟨hslot, fun call' slot'' hpc' => ?_⟩
    rw [← hop hpc hpc', hop']
    rfl
  | acquire =>
    obtain ⟨hslot, -, -, call, slot', hpc, hop', -⟩ := h
    refine ⟨hslot, fun call' slot'' hpc' => ?_⟩
    rw [← hop hpc hpc']
    obtain ⟨op, inst, st, sl⟩ := call
    cases op <;> first | rfl | cases hop'
  | awake =>
    obtain ⟨hslot, -, -, call, depth, hpc, -⟩ := h
    exact ⟨hslot, (by intro call' slot'' hpc'; cases hpc.symm.trans hpc')⟩
  | rdlock | wrlock | rdunlock | wrunlock =>
    obtain ⟨hslot, -, call, slot', hpc, hop', -⟩ := h
    refine ⟨hslot, fun call' slot'' hpc' => ?_⟩
    rw [← hop hpc hpc']
    obtain ⟨op, inst, st, sl⟩ := call
    cases op <;> first | rfl | cases hop'

/-! ### One step -/

/-- The two logging calls of an operation differ. -/
theorem logsBefore_ne_logsAfter {op op' : Op} {r : ℕ} {lc : LogCall} (h : op.logsBefore = some lc) :
    op'.logsAfter r ≠ some lc := by
  intro h'
  cases op with
  | create | mutexUnlock | condWait | condTimedwait | condSignal | condBroadcast =>
    cases h
    cases op' <;> cases h'
  | _ => cases h

theorem not_logged_of_same {l : Label} (h : s'.hist = s.hist) : s'.hist ≠ s.hist ++ [l] := by
  intro h'
  have hlen := congrArg List.length (h.symm.trans h')
  simp at hlen

/-- The flags stay when the history grows. -/
theorem flags_eq {l : Label} (hstep : Stepped cfg s a s') (hbusy : (s.thr a.thread).pc.busy)
    (hhist : s'.hist = s.hist ++ [l]) : s'.started = s.started ∧ s'.finished = s.finished := by
  refine ⟨(started_of_step hstep).resolve_right ?_, (finished_of_step hstep).resolve_right ?_⟩
  · rintro ⟨-, -, t, call, rfl, -, hidle⟩
    exact hbusy (congrArg Pc.call hidle)
  · rintro ⟨-, hsame⟩
    exact not_logged_of_same hsame hhist

/-- A label keeps its slot. -/
theorem Recorded.rep_some (hrec : Recorded s a s') (hphase : Phase s a.thread (s.thr a.thread).pc) {i n : ℕ}
    (hi : i < s.hist.length) (h : s.rep i = some n) : s'.rep i = some n := by
  cases hrec with
  | same _ _ hrep => rw [hrep, h]
  | @log call lc next hpc _ _ _ hrep =>
    cases hlab : next.lab with
    | none =>
      rw [hrep, hlab]
      exact h
    | some j =>
      obtain ⟨r, -, hnone, -⟩ := hphase.lab hpc hlab
      have hij : i ≠ j := by
        rintro rfl
        cases hnone.symm.trans h
      rw [hrep, hlab]
      exact (Function.update_of_ne hij _ _).trans h
  | act _ _ _ _ _ hrep => rw [hrep, Function.update_of_ne hi.ne, h]

theorem Recorded.rep_none (hrec : Recorded s a s') {i : ℕ} (hi : i < s.hist.length) (h : s'.rep i = none) :
    s.rep i = none := by
  cases hrec with
  | same _ _ hrep => rw [← hrep, h]
  | @log call lc next hpc _ _ _ hrep =>
    cases hlab : next.lab with
    | none =>
      rw [hrep, hlab] at h
      exact h
    | some j =>
      replace h : Function.update s.rep j (some s.log.logSz) i = none := by rw [← h, hrep, hlab]
      by_cases hij : i = j
      · subst hij
        rw [Function.update_self] at h
        cases h
      · rwa [Function.update_of_ne hij] at h
  | act _ _ _ _ _ hrep => rwa [hrep, Function.update_of_ne hi.ne] at h

/-- What has been done, with the slot of the new label. -/
theorem Recorded.performed_rep (hrec : Recorded s a s') {t : ℕ} {act : Act}
    (hhist : s'.hist = s.hist ++ [⟨t, act⟩]) (hact : act.isLog = false) :
    ∃ slot, Performed s t slot s' act ∧ s'.rep s.hist.length = slot := by
  have hlabel : ∀ {l : Label}, s'.hist = s.hist ++ [l] → l = ⟨t, act⟩ := fun h =>
    List.singleton_inj.mp (List.append_cancel_left (h.symm.trans hhist))
  cases hrec with
  | same hhist' => exact absurd hhist (not_logged_of_same hhist')
  | log _ _ hhist' =>
    cases hlabel hhist'
    cases hact
  | act _ slot hdo hhist' _ hrep =>
    cases hlabel hhist'
    exact ⟨slot, hdo, by rw [hrep, Function.update_self]⟩

theorem State.LoggedBy.mono (hstep : Stepped cfg s a s') (hplaces : Places s) {i n : ℕ} (h : s.LoggedBy i n) :
    s'.LoggedBy i n := by
  have hrec := recorded_of_step hstep
  obtain ⟨t, act, lc, hat, hn, hlog, ⟨I, hI, hle⟩, hcase⟩ := h
  have hp := hrec.place_eq hn
  refine ⟨t, act, lc, hrec.mono hat, hn.trans_le hrec.logSz_le, ?_, ⟨I, started_some hstep hI, hle⟩, ?_⟩
  · rw [hp]
    exact hrec.mono hlog
  · rw [hp]
    refine hcase.imp ?_ ?_
    · rintro ⟨hact, hlt, hnext⟩
      refine ⟨hact, hlt, fun j act' hj => ?_⟩
      rcases hrec.at hj with hj | ⟨rfl, -⟩
      · exact hnext j act' hj
      · exact Or.inr hat.lt.le
    · rintro ⟨hact, hlt, hnext⟩
      refine ⟨hact, hlt, fun j u act' hj hrel => ?_⟩
      rcases hrec.at hj with hj | ⟨rfl, -⟩
      · exact hnext j u act' hj hrel
      · exact Or.inr (hplaces.place_lt hn).le

section Step

variable (h : Labels s) (hinv : LogInv s) (hplaces : Places s) (hshape : ∀ t, (s.thr t).pc.Shape cfg)
  (hphase : ∀ t, Phase s t (s.thr t).pc) (hstep : Stepped cfg s a s')

include h hinv hstep in
theorem Labels.logged_step {q t f : ℕ} {lc : LogCall} (hat : s'.At q t (.log lc f)) :
    ∃ I, s'.started = some I ∧ I ≤ q := by
  have hrec := recorded_of_step hstep
  rcases hrec.at hat with hat | ⟨rfl, rfl, hbusy, hhist⟩
  · obtain ⟨I, hI, hle⟩ := h.logged q t lc f hat
    exact ⟨I, started_some hstep hI, hle⟩
  · obtain ⟨-, -, -, -, call, next, hpc, -⟩ := hrec.reserved hhist
    obtain ⟨I, hI⟩ := Option.ne_none_iff_exists'.mp (hinv.start.hooked _ (Pc.hooked_of_head hpc))
    exact ⟨I, started_some hstep hI, h.start I hI⟩

include h hphase hstep in
theorem Labels.inside_step {q t f F k u : ℕ} {lc : LogCall} {act : Act} (hat : s'.At q t (.log lc f))
    (hF : s'.finished = some F) (hkq : k < q) (hk : s'.At k u act) (hlog : act.isLog = false)
    (hrel : u = t ∨ act = .spawn t) : k < F := by
  have hrec := recorded_of_step hstep
  have hk' : s.At k u act := by
    refine (hrec.at hk).resolve_right fun ⟨heq, _, _, hhist⟩ => ?_
    have hlt := hat.lt
    rw [hhist, List.length_append, List.length_singleton] at hlt
    omega
  rcases hrec.at hat with hat | ⟨rfl, rfl, hbusy, hhist⟩
  · rcases finished_eq hstep hF with hF | rfl
    · exact h.inside q t lc f hat F hF k u act hkq hk' hlog hrel
    · exact hk'.lt
  · obtain ⟨-, -, -, -, call, next, hpc, -⟩ := hrec.reserved hhist
    have hin : s.Inside a.thread := by
      have hp := hphase a.thread
      rcases Pc.head_cases hpc with ⟨todo, slot, heq, -⟩ | ⟨r, todo, lab, heq, -⟩
      · rw [heq] at hp
        exact hp.1
      · rw [heq] at hp
        exact hp.1
    exact hin F ((flags_eq hstep hbusy hhist).2 ▸ hF) k u act hk' hlog hrel

include h hinv hplaces hphase hshape hstep in
theorem Labels.rep_step {i n : ℕ} (hrep' : s'.rep i = some n) : s'.LoggedBy i n := by
  have hrec := recorded_of_step hstep
  have hold : s.rep i = some n → s'.LoggedBy i n := fun hi => (h.rep i n hi).mono hstep hplaces
  have hrec' := hrec
  cases hrec' with
  | same _ _ hrep => exact hold (hrep ▸ hrep')
  | @log call lc next hpc hsz hhist hplace hrep howner hnext =>
    cases hlab : next.lab with
    | none =>
      rw [hrep, hlab] at hrep'
      exact hold hrep'
    | some j =>
      replace hrep' : Function.update s.rep j (some s.log.logSz) i = some n := by rw [← hrep', hrep, hlab]
      by_cases hij : i = j
      swap
      · exact hold (by rwa [Function.update_of_ne hij] at hrep')
      subst hij
      obtain rfl : s.log.logSz = n := by simpa using hrep'
      -- the label is the latest of the thread
      have hp := hphase a.thread
      have hlogs := (hshape a.thread).log hpc
      have hplace' : s'.place s.log.logSz = s.hist.length := by
        rw [hplace]
        exact if_pos le_rfl
      rcases hlogs with ⟨todo, slot, -, rfl, -⟩ | ⟨r, todo, lab, heq, rfl, hlogs⟩
      · cases hlab
      rw [heq] at hp
      rcases hp.2.1 i hlab with ⟨-, hopen⟩ | ⟨hnil, -⟩
      swap
      · cases hnil
      have hcreate := hopen.not_create
      obtain ⟨⟨act, lc', hat, hact, hop⟩, -, hlast, hst⟩ := hopen
      obtain rfl : lc' = lc := by
        rcases hlogs with ⟨-, hop', -⟩ | ⟨hop', -⟩
        · exact Option.some.inj (hop.symm.trans hop')
        · exact absurd hop' hcreate
      have hat' := hrec.mono hat
      obtain ⟨I, hI⟩ := Option.ne_none_iff_exists'.mp (hinv.start.hooked _ (Pc.hooked_of_head hpc))
      refine ⟨a.thread, act, lc', hat', hsz, ?_, ⟨I, started_some hstep hI, hst I hI⟩, Or.inr ⟨hact, ?_, ?_⟩⟩
      · rw [hplace']
        exact at_length hhist
      · rw [hplace']
        exact hat.lt
      · intro j u act' hj hrel
        rw [hplace']
        rcases hrec.at hj with hj | ⟨rfl, -⟩
        · exact Or.inl (hlast j u act' hj hrel)
        · exact Or.inr le_rfl
  | act act slot hdo hhist hplace hrep hsz =>
    by_cases hi : i = s.hist.length
    swap
    · exact hold (by rwa [hrep, Function.update_of_ne hi] at hrep')
    subst hi
    rw [hrep, Function.update_self] at hrep'
    subst hrep'
    cases hbefore : act.isBefore with
    | false => cases (hdo.not_before hbefore).1
    | true =>
      obtain ⟨call, lc, hpc, hop, hact⟩ := hdo.before hbefore
      have hp := hphase a.thread
      rw [hpc] at hp
      rcases hp lc hop with ⟨hslot, -⟩ | ⟨n', hslot, hn, hat, hlast⟩
      · cases hslot
      cases hslot
      obtain ⟨I, hI, hle⟩ := h.logged _ _ _ _ hat
      have hlt := hplaces.place_lt hn
      have hp' := hrec.place_eq hn
      refine ⟨a.thread, act, lc, at_length hhist, hn.trans_le hrec.logSz_le, ?_,
        ⟨I, started_some hstep hI, hle.trans hlt.le⟩, Or.inl ⟨hact, ?_, fun j act' hj => ?_⟩⟩
      · rw [hp']
        exact hrec.mono hat
      · rw [hp']
        exact hlt
      · rw [hp']
        rcases hrec.at hj with hj | ⟨rfl, -⟩
        · exact Or.inl (hlast j _ act' hj (Or.inl rfl))
        · exact Or.inr le_rfl

include h hphase hstep in
theorem Labels.before_step {i t : ℕ} {act : Act} (hat : s'.At i t act) (hact : act.isBefore)
    (hrep : s'.rep i = none) : s'.Off i := by
  have hrec := recorded_of_step hstep
  rcases hrec.at hat with hat | ⟨rfl, rfl, hbusy, hhist⟩
  · exact off_step hstep hat.lt (h.before i t act hat hact (hrec.rep_none hat.lt hrep))
  · obtain ⟨slot, hdo, hslot⟩ := hrec.performed_rep hhist (by cases act <;> first | rfl | cases hact)
    obtain ⟨call, lc, hpc, hop, -⟩ := hdo.before hact
    obtain ⟨hst, hfin⟩ := flags_eq hstep hbusy hhist
    have hp := hphase a.thread
    rw [hpc] at hp
    rcases hp lc hop with ⟨-, hoff⟩ | ⟨n, hn, -⟩
    · rcases hoff with hoff | hoff
      · exact Or.inl fun I hI => absurd (hoff.symm.trans (hst.symm.trans hI)) (by simp)
      · obtain ⟨F, hF⟩ := Option.ne_none_iff_exists'.mp hoff
        exact Or.inr ⟨F, hfin.trans hF, h.finish F hF⟩
    · rw [hslot, hn] at hrep
      cases hrep

/-- A thread leaves the label behind an operation by logging it, or because it finds the hooks off. -/
theorem label_of_step (hstep : Stepped cfg s a s') (hp : Phase s a.thread (s.thr a.thread).pc) {i : ℕ}
    (h : (s.thr a.thread).pc.label = some i) (hrep : s.rep i = none) :
    (s'.thr a.thread).pc.label = some i ∨ s'.hist = s.hist ∧ s'.started = s.started ∧ s'.finished = s.finished ∧
      (s'.thr a.thread).pc.hooked = false ∧ s.Last a.thread i ∧ (s.started = none ∨ s.finished ≠ none) := by
  have hno : ∀ {pc : Pc}, (s.thr a.thread).pc = pc → pc.label = none → False := fun heq hnone =>
    absurd (hnone.symm.trans (heq ▸ h)) (by simp)
  have hhead : ∀ {call : Call} {stmt : Stmt} {next : Pc}, (s.thr a.thread).pc.head = some (call, stmt, next) →
      next.label = some i ∧ ∀ n, (next.took n).label = some i := by
    intro call stmt next hpc
    rcases Pc.head_cases hpc with ⟨todo, slot, heq, rfl⟩ | ⟨r, todo, lab, heq, rfl⟩
    · exact (hno heq rfl).elim
    · rw [heq] at h
      exact ⟨h, fun _ => h⟩
  cases hstep with
  | @skip t call c next hpend hpc =>
    simp only [Action.thread, State.setPc_self]
    exact Or.inl (hhead hpc).1
  | @log t call lc next log l hpend hpc hlog hsz =>
    simp only [Action.thread, State.setPc_self]
    exact Or.inl (hhead hpc).1
  | @reserve t call lc next log l hpend hpc hlog hsz =>
    simp only [Action.thread, State.setPc_self]
    exact Or.inl ((hhead hpc).2 _)
  | @store t log l hlog => exact Or.inl (by simpa [Action.thread, State.setLog] using h)
  | @idle t call r lab hpend hpc =>
    simp only [Action.thread] at h hp
    rw [hpc] at h hp
    rcases hp.2.1 i h with ⟨hnil, -⟩ | ⟨-, hne, -⟩
    · exact absurd rfl hnil
    · exact absurd hrep hne
  | @second t call r lab hpc =>
    simp only [Action.thread] at h hp ⊢
    rw [hpc] at h hp
    obtain ⟨-, -, hlast, -⟩ := hp.1 i h
    simp only [State.setPc_self]
    split_ifs with hneed
    · exact Or.inl h
    · refine Or.inr ⟨rfl, rfl, rfl, rfl, hlast, ?_⟩
      by_cases hst : s.started = none
      · exact Or.inl hst
      · refine Or.inr fun hfin => hneed ?_
        simp [State.needInstrument, hfin, Option.isSome_iff_ne_none, hst]
  | call hpc | atCall _ hpc | plain hpc | spawn hpc | joined hpc | acquire hpc | release hpc
  | wait hpc | signal _ hpc | rwlock _ _ _ hpc | wakeUp hpc | exit hpc | flush hpc | leave hpc
  | finish hpc => exact (hno hpc rfl).elim

theorem label_of_ne (hstart : Start s) (hstep : Stepped cfg s a s') {t i : ℕ} (ht : t ≠ a.thread)
    (h : (s.thr t).pc.label = some i) : (s'.thr t).pc.label = some i := by
  rcases thr_of_ne hstep ht with heq | ⟨hc, -⟩ | ⟨call, depth, j, hw, -⟩
  · rw [heq]
    exact h
  · rw [hstart.absent t hc.ge] at h
    cases h
  · rw [hw] at h
    cases h

theorem late_step (hstep : Stepped cfg s a s') (hfinish : ∀ F, s.finished = some F → F ≤ s.hist.length)
    {t i : ℕ} (h : s.Late t i) : s'.Late t i := by
  have hrec := recorded_of_step hstep
  obtain ⟨F, hF, hhook, hlate⟩ := h
  refine ⟨F, finished_some hstep hF, ?_, fun j u act hij hat hrel => ?_⟩
  · apply Bool.eq_false_of_not_eq_true
    intro hhook'
    rcases hooked_of_step hstep hhook' with hh | hnone
    · exact absurd (hhook.symm.trans hh) (by simp)
    · exact absurd (hnone.symm.trans hF) (by simp)
  · rcases hrec.at hat with hat | ⟨rfl, hu, -, hhist⟩
    · exact hlate j u act hij hat hrel
    refine ⟨hfinish F hF, ?_⟩
    cases act with
    | log lc f =>
      obtain ⟨-, -, -, -, call, next, hpc, -⟩ := hrec.reserved hhist
      have hut : u = t := hrel.resolve_right (by simp)
      rw [hut] at hpc
      exact absurd (hhook.symm.trans (Pc.hooked_of_head hpc)) (by simp)
    | _ => rfl

include h hinv hphase hstep in
theorem Labels.after_step {i t : ℕ} {act : Act} (hat : s'.At i t act) (hact : act.isAfter)
    (hrep : s'.rep i = none) :
    (s'.thr t).pc.label = some i ∨ (∀ I, s'.started = some I → i < I) ∨ s'.Late t i := by
  have hrec := recorded_of_step hstep
  rcases hrec.at hat with hat | ⟨rfl, rfl, hbusy, hhist⟩
  · have hnone := hrec.rep_none hat.lt hrep
    rcases h.after i t act hat hact hnone with hlab | hst | hlate
    · by_cases ht : t = a.thread
      swap
      · exact Or.inl (label_of_ne hinv.start hstep ht hlab)
      subst ht
      rcases label_of_step hstep (hphase _) hlab hnone with hlab | ⟨hhist, hst', hfin', hhook, hlast, hoff⟩
      · exact Or.inl hlab
      apply Or.inr
      rcases hoff with hoff | hoff
      · exact Or.inl fun I hI => absurd (hoff.symm.trans (hst'.symm.trans hI)) (by simp)
      · obtain ⟨F, hF⟩ := Option.ne_none_iff_exists'.mp hoff
        refine Or.inr ⟨F, hfin'.trans hF, hhook, fun j u act' hij hj hrel => ?_⟩
        unfold State.At at hj
        rw [hhist] at hj
        exact absurd (hlast j u act' hj hrel) (not_le.mpr hij)
    · refine Or.inr (Or.inl fun I hI => ?_)
      rcases started_of_step hstep with heq | ⟨-, heq, -⟩
      · exact hst I (heq ▸ hI)
      · rw [heq] at hI
        cases hI
        exact hat.lt
    · exact Or.inr (Or.inr (late_step hstep h.finish hlate))
  · obtain ⟨slot, hdo⟩ := hrec.performed hhist (by cases act <;> first | rfl | cases hact)
    apply Or.inl
    cases act with
    | joined c =>
      obtain ⟨-, -, -, call, slot', -, -, hpc⟩ := hdo
      rw [hpc]
      rfl
    | acquire m =>
      obtain ⟨-, -, -, call, slot', -, -, hpc⟩ := hdo
      rw [hpc]
      rfl
    | awake c m cause =>
      obtain ⟨-, -, -, call, depth, -, -, hpc⟩ := hdo
      rw [hpc]
      rfl
    | _ => cases hact

/-- A thread in front of an operation for which it has reserved slots stays there until it has done the
operation. -/
theorem front_of_step (hstep : Stepped cfg s a s') {lc : LogCall} {f : ℕ} (h : s.InFront a.thread lc f) :
    s'.InFront a.thread lc f ∨ ∃ act, s'.hist = s.hist ++ [⟨a.thread, act⟩] ∧ s'.rep s.hist.length = some f := by
  obtain ⟨call, hop, hpc⟩ := h
  have hno : ∀ {pc : Pc}, (s.thr a.thread).pc = pc → pc ≠ .before call [] (some f) →
      pc ≠ .atCall call (some f) → False := by
    rintro _ rfl h₁ h₂
    exact hpc.elim h₁ h₂
  have hhead : ∀ {x : Call × Stmt × Pc}, (s.thr a.thread).pc.head = some x → False := by
    intro x hx
    rcases hpc with hpc | hpc
    · rw [hpc] at hx
      cases hx
    · rw [hpc] at hx
      cases hx
  have hcall : ∀ {call' : Call} {slot : Option ℕ}, (s.thr a.thread).pc = .atCall call' slot →
      call' = call ∧ slot = some f := by
    intro call' slot hpc'
    rcases hpc with hpc | hpc
    · cases hpc.symm.trans hpc'
    · cases hpc.symm.trans hpc'
      exact ⟨rfl, rfl⟩
  cases hstep with
  | skip _ hpc' | log _ hpc' | reserve _ hpc' => exact absurd hpc' (fun hpc' => hhead hpc')
  | @store t log l hlog =>
    refine Or.inl ⟨call, hop, ?_⟩
    simpa [Action.thread, State.setLog] using hpc
  | @atCall t call' slot hpend hpc' =>
    refine Or.inl ⟨call, hop, Or.inr ?_⟩
    simp only [Action.thread, State.setPc_self] at hpc ⊢
    rcases hpc with hpc | hpc
    · cases hpc.symm.trans hpc'
      rfl
    · cases hpc.symm.trans hpc'
  | @plain t call' slot x hpc' hop' =>
    obtain ⟨rfl, -⟩ := hcall hpc'
    obtain ⟨op, inst, st, sl⟩ := call'
    cases op with
    | create | mutexUnlock | condWait | condTimedwait | condSignal | condBroadcast => cases hop'
    | _ => cases hop
  | @joined t u call' slot x hpc' hop' hend =>
    obtain ⟨rfl, -⟩ := hcall hpc'
    rw [hop'] at hop
    cases hop
  | @acquire t m call' slot x hpc' hop' hown =>
    obtain ⟨rfl, -⟩ := hcall hpc'
    obtain ⟨op, inst, st, sl⟩ := call'
    cases op with
    | mutexLock | mutexTrylock => cases hop
    | _ => cases hop'
  | @rwlock t call' slot x act writer readers hpc' hop' hact =>
    obtain ⟨rfl, -⟩ := hcall hpc'
    obtain ⟨op, inst, st, sl⟩ := call'
    cases op with
    | create | mutexUnlock | condWait | condTimedwait | condSignal | condBroadcast => cases hop'
    | _ => cases hop
  | spawn hpc' hop' | release hpc' hop' | wait hpc' hop' | signal _ hpc' hop' =>
    obtain ⟨rfl, rfl⟩ := hcall hpc'
    exact Or.inr ⟨_, rfl, Function.update_self _ _ _⟩
  | call hpc' | idle _ hpc' | wakeUp hpc' | second hpc' | exit hpc' | flush hpc' | leave hpc'
  | finish hpc' => exact (hno hpc' (by simp) (by simp)).elim

theorem front_of_ne (hstart : Start s) (hstep : Stepped cfg s a s') {t f : ℕ} {lc : LogCall} (ht : t ≠ a.thread)
    (h : s.InFront t lc f) : s'.InFront t lc f := by
  obtain ⟨call, hop, hpc⟩ := h
  rcases thr_of_ne hstep ht with heq | ⟨hc, -⟩ | ⟨call', depth, j, hw, -⟩
  · exact ⟨call, hop, by rwa [heq]⟩
  · rw [hstart.absent t hc.ge] at hpc
    rcases hpc with hpc | hpc <;> cases hpc
  · rw [hw] at hpc
    rcases hpc with hpc | hpc <;> cases hpc

include h in
theorem Labels.rep_lt {i n : ℕ} (hrep : s.rep i = some n) : i < s.hist.length := by
  obtain ⟨t, act, lc, hat, -⟩ := h.rep i n hrep
  exact hat.lt

include h hinv hphase hshape hstep in
theorem Labels.front_step {p t f : ℕ} {lc : LogCall} (hat : s'.At p t (.log lc f))
    (hlc : ∃ op : Op, op.logsBefore = some lc) : (∃ i, s'.rep i = some f) ∨ s'.InFront t lc f := by
  have hrec := recorded_of_step hstep
  rcases hrec.at hat with hat | ⟨rfl, rfl, hbusy, hhist⟩
  · rcases h.front p t lc f hat hlc with ⟨i, hi⟩ | hfront
    · exact Or.inl ⟨i, hrec.rep_some (hphase _) (h.rep_lt hi) hi⟩
    · by_cases ht : t = a.thread
      · subst ht
        rcases front_of_step hstep hfront with hfront | ⟨act, -, hrep⟩
        · exact Or.inr hfront
        · exact Or.inl ⟨_, hrep⟩
      · exact Or.inr (front_of_ne hinv.start hstep ht hfront)
  · obtain ⟨-, rfl, -, -, call, next, hpc, hnext, -⟩ := hrec.reserved hhist
    obtain ⟨op, hop⟩ := hlc
    have hp := hphase a.thread
    rcases (hshape a.thread).log hpc with ⟨todo, slot, heq, rfl, ⟨hlogs, rfl⟩ | ⟨-, hacc⟩⟩ |
      ⟨r, todo, lab, -, -, ⟨-, hlogs, -⟩ | ⟨-, ⟨rfl, -⟩ | ⟨rfl, -⟩⟩⟩
    · rw [heq] at hp
      rcases hp.2 lc hlogs with ⟨rfl, -⟩ | ⟨hnil, -⟩
      · exact Or.inr ⟨call, hlogs, Or.inl hnext⟩
      · cases hnil
    · exact absurd ((isSync_of_logsBefore hop).symm.trans (not_isSync_of_access hacc)) (by simp)
    · exact absurd hlogs (logsBefore_ne_logsAfter hop)
    · cases isSync_of_logsBefore hop
    · cases isSync_of_logsBefore hop

include h hphase hshape hstep in
theorem Labels.behind_step {p t f : ℕ} {lc : LogCall} (hat : s'.At p t (.log lc f))
    (hlc : (∃ c, lc = .logThreadJoinEvent c) ∨ ∃ m c, lc = .logCondAwakeEvent m c) : ∃ i, s'.rep i = some f := by
  have hrec := recorded_of_step hstep
  rcases hrec.at hat with hat | ⟨rfl, rfl, hbusy, hhist⟩
  · obtain ⟨i, hi⟩ := h.behind p t lc f hat hlc
    exact ⟨i, hrec.rep_some (hphase _) (h.rep_lt hi) hi⟩
  · obtain ⟨-, rfl, -, -, call, next, hpc, -, hrep⟩ := hrec.reserved hhist
    have hp := hphase a.thread
    rcases (hshape a.thread).log hpc with ⟨todo, slot, -, -, ⟨hlogs, -⟩ | ⟨-, hacc⟩⟩ |
      ⟨r, todo, lab, heq, rfl, ⟨-, hlogs, -⟩ | ⟨-, ⟨rfl, -⟩ | ⟨rfl, -⟩⟩⟩
    · obtain ⟨op, inst, st, sl⟩ := call
      rcases hlc with ⟨c, rfl⟩ | ⟨m, c, rfl⟩ <;> cases op <;> cases hlogs
    · rcases hlc with ⟨c, rfl⟩ | ⟨m, c, rfl⟩ <;> rcases hacc with hacc | hacc <;> cases hacc
    · rw [heq] at hp
      cases lab with
      | some i => exact ⟨i, hrep i rfl⟩
      | none =>
        have hleaves := hp.2.2 rfl
        obtain ⟨op, inst, st, sl⟩ := call
        cases op with
        | join | condWait | condTimedwait => cases hleaves
        | _ => rcases hlc with ⟨c, rfl⟩ | ⟨m, c, rfl⟩ <;> cases hlogs
    · rcases hlc with ⟨c, hc⟩ | ⟨m, c, hc⟩ <;> cases hc
    · rcases hlc with ⟨c, hc⟩ | ⟨m, c, hc⟩ <;> cases hc

include h hinv hplaces hshape hphase hstep in
/-- **One step**: the labels and their slots. -/
theorem Labels.step : Labels s' where
  start := fun I hI => (started_le hstep h.start I hI).trans (recorded_of_step hstep).length_le
  finish := fun F hF => by
    have hle := (recorded_of_step hstep).length_le
    rcases finished_eq hstep hF with hF | rfl
    · exact (h.finish F hF).trans hle
    · exact hle
  logged := fun _ _ _ _ hat => h.logged_step hinv hstep hat
  inside := fun _ _ _ _ hat _ hF _ _ _ hkq hk hlog hrel => h.inside_step hphase hstep hat hF hkq hk hlog hrel
  rep := fun _ _ hrep => h.rep_step hinv hplaces hshape hphase hstep hrep
  before := fun _ _ _ hat hact hrep => h.before_step hphase hstep hat hact hrep
  after := fun _ _ _ hat hact hrep => h.after_step hinv hphase hstep hat hact hrep
  front := fun _ _ _ _ hat hlc => h.front_step hinv hshape hphase hstep hat hlc
  behind := fun _ _ _ _ hat hlc => h.behind_step hshape hphase hstep hat hlc

end Step

end Schnauzer.Interface
