import Schnauzer.Core.LegalOrder

/-!
# What synchronises is in the trace

A chain of operations that synchronise, other than on reader-writer locks, leads from one access to another. The
release at each link has logged an event in front of it and the acquisition has logged one behind it, so that the trace
has a chain between the two accesses as well.

## What is proved

* `Told.give`, `Told.take` — one link of the chain.
* `happensBefore_of_syncBefore` — **accesses that are ordered are ordered in the trace.**
-/

namespace Schnauzer.Interface

open CausalOrder Logger Relation Runs

variable {cfg : Config} {s s' : State} {a : Action}

/-- A signal has its place for a ticket. -/
def Tickets (s : State) : Prop := ∀ k t c i, s.At k t (.signal c i) → i = k

theorem Tickets.init : Tickets init := fun k t c i h => by cases h

theorem Tickets.step (h : Tickets s) (hstep : Stepped cfg s a s') : Tickets s' := by
  intro k t c i hat
  have hrec := recorded_of_step hstep
  rcases hrec.at hat with hat | ⟨rfl, -, -, hhist⟩
  · exact h k t c i hat
  · obtain ⟨slot, hi, -⟩ := hrec.performed hhist rfl
    exact hi

/-! ### The links of a chain -/

/-- The node of the trace for a node of the history. -/
def State.Carries (s : State) (x : RealNode) (v : Node) : Prop :=
  match x with
  | .thr t => v = .thr t
  | .mutex m => v = .var m
  | .wake i => ∃ u c, s.At i u (.signal c i) ∧ v = .var c
  | .written _ | .read _ => False

/-- By place `k` event `r` of the file has passed on, to node `x`, that the access `n` has happened. -/
structure Told (s : State) (n k : ℕ) (x : RealNode) (r : ℕ) (f : Event) : Prop where
  event : s.file[r]? = some f
  node : ∃ v ∈ f.writes, s.Carries x v
  le : s.place r ≤ k
  before : r = n ∨ HappensBefore s.file n r ∧ f.isAccessEvent = false
  notWait : f.opTy ≠ .wait

theorem Told.mono {n k j r : ℕ} {x : RealNode} {f : Event} (h : Told s n k x r f) (hkj : k ≤ j) : Told s n j x r f :=
  ⟨h.event, h.node, h.le.trans hkj, h.before, h.notWait⟩

/-- A place lies before the end of the window in which threads log, or is a reservation itself. -/
def State.InWindow (s : State) (k : ℕ) (act : Act) : Prop := ∀ F, s.finished = some F → k < F ∨ act.isLog

/-- The event is no access if its call is for none. -/
theorem not_isAccess_of_loggedAs {e : Event} {lc : LogCall} {d : ℕ} (hlc : lc.isAccess = false)
    (h : e.LoggedAs lc d) : e.isAccessEvent = false := by
  apply Bool.eq_false_of_not_eq_true
  intro hacc
  rw [isAccess_of_loggedAs hacc h] at hlc
  cases hlc

/-- And an access if its call is for one. -/
theorem access_of_loggedAs {e : Event} {lc : LogCall} {d : ℕ} (hlc : lc.isAccess) (h : e.LoggedAs lc d) :
    e.isAccessEvent := by
  unfold Event.LoggedAs at h
  cases hop : e.opTy with
  | ld | st => simp [Event.isAccessEvent, hop]
  | call | other =>
    rw [hop] at h
    exact h.elim
  | lock | unlock =>
    rw [hop] at h
    rcases h.1 with rfl | ⟨c, rfl⟩ <;> cases hlc
  | wait | awake =>
    rw [hop] at h
    obtain ⟨⟨m, rfl⟩, -⟩ := h
    cases hlc
  | _ =>
    rw [hop] at h
    obtain ⟨rfl, -⟩ := h
    cases hlc

/-- A call in front of an operation logs an event that passes on knowledge, and perhaps a `WAIT` behind it. -/
theorem first_of_logsBefore {act : Act} {lc : LogCall} {e : Event} {d : ℕ} (hlc : act.logsBefore lc)
    (h : e.LoggedAs lc d) (hwait : e.opTy ≠ .wait) : d = 0 := by
  unfold Event.LoggedAs at h
  cases hop : e.opTy with
  | wait => exact absurd hop hwait
  | ld | st =>
    rw [hop] at h
    exact absurd h (not_access_of_logsBefore hlc)
  | awake =>
    rw [hop] at h
    obtain ⟨⟨m, rfl⟩, -⟩ := h
    exact absurd hlc (not_logsBefore rfl)
  | call | other =>
    rw [hop] at h
    exact h.elim
  | _ =>
    rw [hop] at h
    exact h.2

/-- The first event of a call is no `WAIT`. -/
theorem not_wait_of_loggedAs {lc : LogCall} {e : Event} (h : e.LoggedAs lc 0) : e.opTy ≠ .wait := by
  intro hop
  rw [Event.LoggedAs, hop] at h
  exact absurd h.2 Nat.zero_ne_one

/-- The event of a creation. -/
theorem create_of_loggedAs {e : Event} (h : e.LoggedAs (.startBatch 1) 0) : e.opTy = .create := by
  unfold Event.LoggedAs at h
  cases hop : e.opTy with
  | create => rfl
  | _ => simp [hop, LogCall.isAccess] at h

/-- The event of a join. -/
theorem join_of_loggedAs {e : Event} {c : ℕ} (h : e.LoggedAs (.logThreadJoinEvent c) 0) :
    e.opTy = .join ∧ e.remoteTid = c := by
  unfold Event.LoggedAs at h
  cases hop : e.opTy with
  | join =>
    rw [hop] at h
    cases h.1
    exact ⟨rfl, rfl⟩
  | _ => simp [hop, LogCall.isAccess] at h

/-- The second event behind a wait. -/
theorem awake_of_loggedAs {e : Event} {m c : Addr} (h : e.LoggedAs (.logCondAwakeEvent m c) 1) :
    e.opTy = .awake ∧ e.varAddr = c := by
  unfold Event.LoggedAs at h
  cases hop : e.opTy with
  | awake =>
    rw [hop] at h
    obtain ⟨⟨m', heq⟩, -⟩ := h
    cases heq
    exact ⟨rfl, rfl⟩
  | _ => simp [hop, LogCall.isAccess] at h

/-- Behind an operation no `WAIT` is logged. -/
theorem not_wait_of_logsAfter {act : Act} {lc : LogCall} {e : Event} {d : ℕ} (hlc : act.logsAfter lc)
    (h : e.LoggedAs lc d) : e.opTy ≠ .wait := by
  intro hop
  rw [Event.LoggedAs, hop] at h
  obtain ⟨⟨m, rfl⟩, -⟩ := h
  cases act with
  | acquire => rcases hlc with hlc | hlc <;> cases hlc
  | joined | awake => cases hlc
  | _ => exact hlc.elim

/-- A slot that is reserved in front of an operation is for one label. -/
theorem RunInv.rep_unique (h : RunInv cfg s) {i k r : ℕ} (hi : s.rep i = some r) (hk : s.rep k = some r) {t u : ℕ}
    {act act' : Act} (hati : s.At i t act) (hatk : s.At k u act') (hact : act.isBefore) (hact' : act'.isBefore) :
    i = k := by
  have hno : ∀ {x : Act} {lc : LogCall}, x.isBefore → ¬ x.logsAfter lc := by
    intro x lc hx hlogs
    cases x <;> first | exact hlogs | cases hx
  obtain ⟨t₁, act₁, lc₁, hati', -, hat₁, -, hcase⟩ := h.labels.rep i r hi
  obtain ⟨t₂, act₂, lc₂, hatk', -, hat₂, -, hcase'⟩ := h.labels.rep k r hk
  obtain ⟨-, rfl⟩ := hati.unique hati'
  obtain ⟨-, rfl⟩ := hatk.unique hatk'
  obtain ⟨-, hlt, hnext⟩ := hcase.resolve_right fun hc => hno hact hc.1
  obtain ⟨-, hlt', hnext'⟩ := hcase'.resolve_right fun hc => hno hact' hc.1
  obtain ⟨rfl, -⟩ := hat₁.unique hat₂
  have hle := hnext k _ hatk'
  have hle' := hnext' i _ hati'
  omega

section Links

variable (hinv : RunInv cfg s) (hfile : FileInv s)

include hinv hfile in
/-- An event of the file that lies before an access. -/
theorem exists_event {n' r : ℕ} {e' : Event} (he' : s.file[n']? = some e') (hr : r < s.log.logSz)
    (hlt : s.place r < s.place n') : ∃ f, s.file[r]? = some f ∧ s.log.events r = some f := by
  have hlen := (List.getElem?_eq_some_iff.mp he').1
  have hrn := hinv.places.lt_of_place_lt hr hlt
  have hf : s.file[r]? = some s.file[r] := List.getElem?_eq_getElem (hrn.trans hlen)
  exact ⟨_, hf, (hfile.file r _ hf).1⟩

variable {n n' k j t u : ℕ} {e e' : Event} {act act' : Act} {x y : RealNode} {lc : LogCall} {f : Event}

include hinv in
/-- The event of a label that passes on knowledge. -/
theorem writes_of_gives (htick : Tickets s) {r : ℕ} (hk : s.At k t act) (hy : y ∈ act.gives) (hact : act.isBefore)
    (hrep : s.rep k = some r) (hlogs : act.logsBefore lc) (hf : s.log.events r = some f) (hlog : f.LoggedAs lc 0) :
    ∃ v ∈ f.writes, s.Carries y v := by
  cases act with
  | spawn c =>
    obtain rfl : y = _ := List.mem_singleton.mp hy
    obtain rfl : lc = _ := hlogs
    have hop := create_of_loggedAs hlog
    obtain ⟨i, hi, hati⟩ := (hinv.events r f (Or.inl hf)).2.2 hop
    obtain rfl := hinv.rep_unique hi hrep hati hk rfl rfl
    obtain ⟨-, heq⟩ := hati.unique hk
    cases heq
    exact ⟨.thr f.remoteTid, Event.thr_mem_writes.mpr (Or.inr ⟨hop, rfl⟩), rfl⟩
  | release m =>
    obtain rfl : y = _ := List.mem_singleton.mp hy
    obtain ⟨hop, hm⟩ := unlock_of_release hlogs hlog
    exact ⟨.var m, Event.var_mem_writes.mpr ⟨by simp [Event.isSyncRelEvent, hop], hm.symm⟩, rfl⟩
  | signal c i =>
    obtain rfl : y = _ := List.mem_singleton.mp hy
    obtain ⟨hop, hc⟩ := signal_of_loggedAs hlogs hlog
    obtain rfl := htick k t c i hk
    refine ⟨.var c, Event.var_mem_writes.mpr ⟨?_, hc.symm⟩, t, c, hk, rfl⟩
    rcases hop with hop | hop <;> simp [Event.isSyncRelEvent, hop]
  | _ => cases hact

include hinv hfile in
/-- **A release** has an event, and passes on what its thread knows. -/
theorem Told.give (htick : Tickets s) (he : s.file[n]? = some e) (hacc : e.isAccessEvent)
    (he' : s.file[n']? = some e') {r : ℕ} (h : Told s n k (.thr t) r f) (hk : s.At k t act) (hact : act.isBefore)
    (hy : y ∈ act.gives) (hstart : ∃ I, s.started = some I ∧ I ≤ k) (hwin : s.InWindow k act)
    (hkn : k < s.place n') : ∃ r' f', Told s n k y r' f' := by
  have hnolog : act.isLog = false := by cases act <;> first | rfl | cases hact
  obtain ⟨r', lc, hrep, hlogs, hr', hat, hlt, hnext⟩ := hinv.slot_before hk hact hstart fun F hF =>
    (hwin F hF).resolve_right fun hlog => by
      rw [hnolog] at hlog
      cases hlog
  obtain ⟨f', hf', hev'⟩ := exists_event hinv hfile he' hr' (hlt.trans hkn)
  obtain ⟨htid', hlog'⟩ := hinv.event_of_label hat hev'
  have hacc' : f'.isAccessEvent = false :=
    not_isAccess_of_loggedAs (Bool.eq_false_of_not_eq_true (not_access_of_logsBefore hlogs)) hlog'
  refine ⟨r', f', hf', writes_of_gives hinv htick hk hy hact hrep hlogs hev' hlog', hlt.le, Or.inr ⟨?_, hacc'⟩,
    not_wait_of_loggedAs hlog'⟩
  -- the event that has told the thread comes before, or is the same
  have hev := (hfile.file r f h.event).1
  obtain ⟨hr, lcr, fr, hfr, hatr, hlogr⟩ := hinv.label_of_event hev
  obtain ⟨v, hv, hcar⟩ := h.node
  obtain rfl : v = .thr t := hcar
  have hle : r < r' ∨ r = r' := by
    rcases Event.thr_mem_writes.mp hv with htid | ⟨hop, htid⟩
    · rw [← htid] at hatr
      have hle : s.place r ≤ s.place r' := by
        rcases hnext _ _ hatr with hle | hle
        · exact hle
        · rw [h.le.antisymm hle] at hatr
          obtain ⟨-, rfl⟩ := hatr.unique hk
          cases hnolog
      rcases hle.lt_or_eq with hlt | heq
      · exact Or.inl (hinv.places.lt_of_place_lt hr hlt)
      · rw [heq] at hatr
        obtain ⟨-, hlabel⟩ := hatr.unique hat
        cases hlabel
        have hzero := first_of_logsBefore hlogs hlogr h.notWait
        omega
    · exact Or.inl (create_before hinv hev hev' hop (htid'.trans htid))
  rcases hle with hlt | rfl
  · have hdirect : HappensBefore s.file r r' :=
      .single ⟨hlt, .thr t, ⟨f, h.event, hv⟩, f', hf', Event.thr_mem_reads.mpr (Or.inl htid'.symm)⟩
    rcases h.before with rfl | ⟨hb, -⟩
    · exact hdirect
    · exact hb.trans hdirect
  · rcases h.before with rfl | ⟨hb, -⟩
    · cases hf'.symm.trans he
      rw [hacc] at hacc'
      cases hacc'
    · exact hb

/-- The event of a label that takes over knowledge: behind a wait the second one, for the signal. -/
structure Acquires (s : State) (l t : ℕ) (x : RealNode) (r : ℕ) (f : Event) : Prop where
  event : s.log.events r = some f
  size : r < s.log.logSz
  place : s.place r = s.place l
  tid : f.tid = t
  reads : ∀ v, s.Carries x v → v ∈ f.reads

include hinv in
/-- **An acquisition** has an event. -/
theorem exists_acquires (hcont : Contents s) {l : ℕ} (hevt : ∀ r < s.log.logSz, s.place r = s.place l →
    ∃ f, s.log.events r = some f) (hk : s.At k t act) (hx : x ∈ act.takes) (hl : l < s.log.logSz)
    (hat : s.At (s.place l) t (.log lc l)) (hlogs : act.logsAfter lc) : ∃ r f, Acquires s l t x r f := by
  obtain ⟨f, hev⟩ := hevt l hl rfl
  obtain ⟨htid, hlog⟩ := hinv.event_of_label hat hev
  have hmutex : ∀ m, x = .mutex m → act.takesMutex m → ∃ r f, Acquires s l t x r f := by
    rintro m rfl hm
    obtain ⟨hacq, haddr⟩ := lock_of_takesMutex hm hlogs hlog
    refine ⟨l, f, hev, hl, rfl, htid, fun v hv => ?_⟩
    obtain rfl : v = _ := hv
    exact Event.var_mem_reads.mpr ⟨hacq, haddr.symm⟩
  cases act with
  | joined c =>
    obtain rfl : x = _ := List.mem_singleton.mp hx
    obtain rfl : lc = _ := hlogs
    obtain ⟨hop, hc⟩ := join_of_loggedAs hlog
    refine ⟨l, f, hev, hl, rfl, htid, fun v hv => ?_⟩
    obtain rfl : v = _ := hv
    exact Event.thr_mem_reads.mpr (Or.inr ⟨hop, hc.symm⟩)
  | acquire m =>
    obtain rfl : x = _ := List.mem_singleton.mp hx
    exact hmutex m rfl rfl
  | awake c m cause =>
    obtain rfl : lc = _ := hlogs
    cases cause with
    | none =>
      obtain rfl : x = _ := List.mem_singleton.mp hx
      exact hmutex m rfl rfl
    | some i =>
      rcases List.mem_cons.mp hx with rfl | hx
      · exact hmutex m rfl rfl
      obtain rfl : x = _ := List.mem_singleton.mp hx
      -- the `AWAKE` is in the second slot
      obtain ⟨hsz, hplace⟩ := hcont.pair _ _ _ _ hat rfl
      obtain ⟨f', hev'⟩ := hevt (l + 1) hsz hplace
      obtain ⟨-, lc', g, -, hat', hlog'⟩ := hinv.label_of_event hev'
      rw [hplace] at hat'
      obtain ⟨htid', hlabel⟩ := hat'.unique hat
      cases hlabel
      rw [Nat.add_sub_cancel_left] at hlog'
      obtain ⟨hop, hc⟩ := awake_of_loggedAs hlog'
      refine ⟨l + 1, f', hev', hsz, hplace, htid', fun v hv => ?_⟩
      obtain ⟨u, c', hu, rfl⟩ := hv
      obtain ⟨-, u', hu'⟩ := hinv.threads.awake _ _ _ _ _ hk
      obtain ⟨-, heq⟩ := hu.unique hu'
      cases heq
      exact Event.var_mem_reads.mpr ⟨by simp [Event.isSyncAcqEvent, hop], hc.symm⟩
  | _ => exact hlogs.elim

include hinv hfile in
/-- **An acquisition** takes over what has been passed on. -/
theorem Told.take (hcont : Contents s) (he' : s.file[n']? = some e') (hacc' : e'.isAccessEvent) {r : ℕ}
    (h : Told s n k x r f) (hk : s.At k t act) (hact : act.isAfter) (hx : x ∈ act.takes)
    (hstart : ∃ I, s.started = some I ∧ I ≤ k) (hj : s.At j u act') (hkj : k < j) (hrel : u = t ∨ act' = .joined t)
    (hwin : s.InWindow j act') (hjn : j ≤ s.place n') : ∃ r' f', Told s n j (.thr t) r' f' := by
  obtain ⟨l, lc, -, hlogs, hl, hat, hlt, hnext⟩ := hinv.slot_after hk hact hstart hj hkj hrel hwin
  have hlj : s.place l ≤ j := (hnext j u act' hj hrel).resolve_left (not_le.mpr hkj)
  obtain ⟨-, lc', g, hat', hlc'⟩ := hinv.file_access hfile he' hacc'
  have hln : s.place l < s.place n' := by
    apply lt_of_le_of_ne (hlj.trans hjn)
    intro heq
    rw [heq] at hat
    obtain ⟨-, hlabel⟩ := hat.unique hat'
    cases hlabel
    exact not_access_of_logsAfter hlogs hlc'
  have hevt : ∀ r < s.log.logSz, s.place r = s.place l → ∃ f, s.file[r]? = some f ∧ s.log.events r = some f :=
    fun r hr heq => exists_event hinv hfile he' hr (heq ▸ hln)
  obtain ⟨r', f', hacq⟩ := exists_acquires hinv hcont
    (fun r hr heq => (hevt r hr heq).imp fun _ h => h.2) hk hx hl hat hlogs
  have hf' : s.file[r']? = some f' := by
    obtain ⟨f'', hf'', hev''⟩ := hevt r' hacq.size hacq.place
    rw [hf'']
    exact hev''.symm.trans hacq.event
  have hlabel : ∃ d, f'.LoggedAs lc d := by
    obtain ⟨-, lc'', g', -, hat'', hlog''⟩ := hinv.label_of_event hacq.event
    rw [hacq.place] at hat''
    obtain ⟨-, hlabel⟩ := hat''.unique hat
    cases hlabel
    exact ⟨_, hlog''⟩
  obtain ⟨d, hlog⟩ := hlabel
  have hr := (hinv.label_of_event (hfile.file r f h.event).1).1
  have hrr : r < r' := hinv.places.lt_of_place_lt hr (by rw [hacq.place]; exact h.le.trans_lt hlt)
  obtain ⟨v, hv, hcar⟩ := h.node
  have hdirect : HappensBefore s.file r r' := .single ⟨hrr, v, ⟨f, h.event, hv⟩, f', hf', hacq.reads v hcar⟩
  refine ⟨r', f', hf', ⟨.thr t, Event.thr_mem_writes.mpr (Or.inl hacq.tid.symm), rfl⟩, hacq.place ▸ hlj,
    Or.inr ⟨?_, not_isAccess_of_loggedAs (Bool.eq_false_of_not_eq_true (not_access_of_logsAfter hlogs)) hlog⟩, ?_⟩
  · rcases h.before with rfl | ⟨hb, -⟩
    · exact hdirect
    · exact hb.trans hdirect
  · exact not_wait_of_logsAfter hlogs hlog

/-! ### A chain -/

/-- The label at a place of a direct link. -/
theorem link_labels (h : Direct (nodesAt Label.syncReads s.hist) (nodesAt Label.writes s.hist) k j) :
    k < j ∧ ∃ t act u act' y, s.At k t act ∧ s.At j u act' ∧ y ∈ (⟨t, act⟩ : Label).writes ∧
      y ∈ (⟨u, act'⟩ : Label).syncReads := by
  obtain ⟨hkj, y, ⟨⟨t, act⟩, hk, hy⟩, ⟨u, act'⟩, hj, hy'⟩ := h
  exact ⟨hkj, t, act, u, act', y, hk, hj, hy, hy'⟩

theorem syncReads_of_log {c : LogCall} {g : ℕ} (h : y ∈ (⟨t, .log c g⟩ : Label).syncReads) : y = .thr t :=
  h.1.resolve_right (by simp [Act.takes])

theorem writes_of_log {c : LogCall} {g : ℕ} (h : y ∈ (⟨t, .log c g⟩ : Label).writes) : y = .thr t :=
  h.resolve_right (by simp [Act.gives])

include hinv in
/-- What leads to a place in the window lies in the window. -/
theorem inWindow_of_link (hkj : k < j) (hk : s.At k t act) (hj : s.At j u act')
    (hy : y ∈ (⟨t, act⟩ : Label).writes) (hy' : y ∈ (⟨u, act'⟩ : Label).syncReads) (hwin : s.InWindow j act') :
    s.InWindow k act := by
  intro F hF
  cases hlog : act.isLog with
  | true => exact Or.inr rfl
  | false =>
    apply Or.inl
    rcases hwin F hF with hlt | hlog'
    · exact hkj.trans hlt
    cases act' with
    | log c g =>
      obtain rfl := syncReads_of_log hy'
      apply hinv.labels.inside _ _ _ _ hj F hF k t act hkj hk hlog
      rcases hy with hy | hy
      · cases hy
        exact Or.inl rfl
      · apply Or.inr
        cases act with
        | spawn c' =>
          cases List.mem_singleton.mp hy
          rfl
        | release | signal | rdunlock | wrunlock => cases List.mem_singleton.mp hy
        | _ => cases hy
    | _ => cases hlog'

include hinv in
theorem inWindow_of_syncBefore {p v : ℕ} {c : LogCall} {g : ℕ} (hp : s.At p v (.log c g))
    (h : k = p ∨ SyncBefore s.hist k p) (hk : s.At k t act) : s.InWindow k act := by
  have hlog : ∀ {t : ℕ} {act : Act}, s.At p t act → s.InWindow p act := by
    intro t act hat F hF
    obtain ⟨-, rfl⟩ := hat.unique hp
    exact Or.inr rfl
  rcases h with rfl | h
  · exact hlog hk
  induction h using TransGen.head_induction_on generalizing t act with
  | single h =>
    obtain ⟨hkj, t', act', u, act'', y, hk', hj, hy, hy'⟩ := link_labels h
    obtain ⟨rfl, rfl⟩ := hk.unique hk'
    exact inWindow_of_link hinv hkj hk hj hy hy' (hlog hj)
  | head h _ ih =>
    obtain ⟨hkj, t', act', u, act'', y, hk', hj, hy, hy'⟩ := link_labels h
    obtain ⟨rfl, rfl⟩ := hk.unique hk'
    exact inWindow_of_link hinv hkj hk hj hy hy' (ih hj)

include hinv hfile in
/-- **One link.** -/
theorem Told.link (hcont : Contents s) (htick : Tickets s) (he : s.file[n]? = some e) (hacc : e.isAccessEvent)
    (he' : s.file[n']? = some e') (hacc' : e'.isAccessEvent) {r : ℕ} (h : Told s n k x r f) (hk : s.At k t act)
    (hx : x ∈ (⟨t, act⟩ : Label).syncReads) (hstart : ∃ I, s.started = some I ∧ I ≤ k) (hkj : k < j)
    (hj : s.At j u act') (hwin : s.InWindow k act) (hwin' : s.InWindow j act') (hjn : j ≤ s.place n')
    (hy : y ∈ (⟨t, act⟩ : Label).writes) (hy' : y ∈ (⟨u, act'⟩ : Label).syncReads) :
    ∃ r' f', Told s n j y r' f' := by
  obtain ⟨hx, hxrw⟩ := hx
  obtain ⟨hyr, hyrw⟩ := hy'
  rcases hy with rfl | hy
  · -- the thread goes on, or is joined
    rcases hx with rfl | hx
    · exact ⟨r, f, h.mono hkj.le⟩
    have hafter : act.isAfter := by
      cases act with
      | joined | acquire | awake => rfl
      | rdlock =>
        obtain rfl := List.mem_singleton.mp hx
        cases hxrw
      | wrlock =>
        rcases List.mem_cons.mp hx with rfl | hx
        · cases hxrw
        · obtain rfl := List.mem_singleton.mp hx
          cases hxrw
      | _ => cases hx
    refine h.take hinv hfile hcont he' hacc' hk hafter hx hstart hj hkj ?_ hwin' hjn
    rcases hyr with hyr | hyr
    · cases hyr
      exact Or.inl rfl
    · apply Or.inr
      cases act' with
      | joined c =>
        cases List.mem_singleton.mp hyr
        rfl
      | awake c m cause => cases cause <;> simp [Act.takes] at hyr
      | _ => simp [Act.takes] at hyr
  · have hbefore : act.isBefore ∧ act.takes = [] := by
      cases act with
      | spawn | release | signal => exact ⟨rfl, rfl⟩
      | rdunlock | wrunlock =>
        obtain rfl := List.mem_singleton.mp hy
        cases hyrw
      | _ => cases hy
    have hx : x = .thr t := hx.resolve_right (by simp [hbefore.2])
    subst hx
    obtain ⟨r', f', h'⟩ := h.give hinv hfile htick he hacc he' hk hbefore.1 hy hstart hwin (hkj.trans_le hjn)
    exact ⟨r', f', h'.mono hkj.le⟩

include hinv hfile in
/-- **A chain**, up to any of its places. -/
theorem told_of_syncBefore (hcont : Contents s) (htick : Tickets s) (he : s.file[n]? = some e)
    (hacc : e.isAccessEvent) (he' : s.file[n']? = some e') (hacc' : e'.isAccessEvent)
    (h : SyncBefore s.hist (s.place n) j) (hjn : j = s.place n' ∨ SyncBefore s.hist j (s.place n')) :
    ∃ u act y r f, s.At j u act ∧ y ∈ (⟨u, act⟩ : Label).syncReads ∧ Told s n j y r f := by
  obtain ⟨hn, lc, g, hat, hlc⟩ := hinv.file_access hfile he hacc
  obtain ⟨-, lc', g', hat', -⟩ := hinv.file_access hfile he' hacc'
  obtain ⟨I, hI, hIn⟩ := hinv.labels.logged _ _ _ _ hat
  induction h with
  | single h =>
    obtain ⟨hkj, t, act, u, act', y, hk, hj, hy, hy'⟩ := link_labels h
    obtain ⟨rfl, rfl⟩ := hat.unique hk
    obtain rfl := writes_of_log hy
    refine ⟨u, act', _, n, e, hj, hy', he, ⟨_, e.mem_writes_self, rfl⟩, hkj.le, Or.inl rfl, fun hop => ?_⟩
    rcases Event.isAccessEvent_iff.mp hacc with h | h <;> cases h.symm.trans hop
  | @tail k j hb h ih =>
    obtain ⟨hkj, t, act, u, act', y, hk, hj, hy, hy'⟩ := link_labels h
    have hle : j ≤ s.place n' := hjn.elim Eq.le fun h => (Before.lt h).le
    have hkn : SyncBefore s.hist k (s.place n') := by
      rcases hjn with rfl | hjn
      · exact .single h
      · exact .head h hjn
    obtain ⟨t', act'', x, r, f, hk', hx, htold⟩ := ih (Or.inr hkn)
    obtain ⟨rfl, rfl⟩ := hk.unique hk'
    obtain ⟨r', f', htold'⟩ := htold.link hinv hfile hcont htick he hacc he' hacc' hk hx
      ⟨I, hI, hIn.trans (Before.lt hb).le⟩ hkj hj (inWindow_of_syncBefore hinv hat' (Or.inr hkn) hk)
      (inWindow_of_syncBefore hinv hat' hjn hj) hle hy hy'
    exact ⟨u, act', y, r', f', hj, hy', htold'⟩

include hinv hfile in
/-- **Accesses that are ordered are ordered in the trace**, if no reader-writer lock is needed for their order. -/
theorem happensBefore_of_syncBefore (hcont : Contents s) (htick : Tickets s) (he : s.file[n]? = some e)
    (hacc : e.isAccessEvent) (he' : s.file[n']? = some e') (hacc' : e'.isAccessEvent)
    (h : SyncBefore s.hist (s.place n) (s.place n')) : HappensBefore s.file n n' := by
  obtain ⟨u, act, y, r, f, hat, hy, htold⟩ :=
    told_of_syncBefore hinv hfile hcont htick he hacc he' hacc' h (Or.inl rfl)
  obtain ⟨hn, -⟩ := hinv.file_access hfile he hacc
  obtain ⟨-, lc', g', hat', hlc'⟩ := hinv.file_access hfile he' hacc'
  obtain ⟨rfl, rfl⟩ := hat.unique hat'
  obtain rfl := syncReads_of_log hy
  obtain ⟨v, hv, hcar⟩ := htold.node
  obtain rfl : v = .thr e'.tid := hcar
  have hdirect : r < n' → HappensBefore s.file r n' := fun hlt =>
    .single ⟨hlt, .thr e'.tid, ⟨f, htold.event, hv⟩, e', he', e'.mem_reads_self⟩
  rcases htold.before with rfl | ⟨hb, hno⟩
  · exact hdirect (hinv.places.lt_of_place_lt hn (Before.lt h))
  · obtain ⟨hr, lc, g, -, hatr, hlog⟩ := hinv.label_of_event (hfile.file r f htold.event).1
    refine hb.trans (hdirect (hinv.places.lt_of_place_lt hr (lt_of_le_of_ne htold.le fun heq => ?_)))
    -- the two are reserved by different calls
    rw [heq] at hatr
    obtain ⟨-, hlabel⟩ := hatr.unique hat'
    cases hlabel
    exact absurd (access_of_loggedAs hlc' hlog) (by simp [hno])

end Links

end Schnauzer.Interface
