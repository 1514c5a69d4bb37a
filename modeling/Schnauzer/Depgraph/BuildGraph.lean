import Schnauzer.Depgraph.Filter

/-!
# The threads of a graph

`DepGraph::buildGraph` and the `assert` of `main` in front of the analysis: the threads that are counted are those
that have an event in `graph_`. `VerifyPass`, in between, looks at edges only, and no function adds one.

## What is proved

* `mem_tids_iff` — the threads that are counted.
* `analyze_eq_threadIndex_iff` — when the analysis uses an index that no clock has.
* `guarded_inRange_iff` — when the `assert` protects the clocks.
-/

namespace Schnauzer

open RaceAnalyze

/-- `graph_`. -/
structure ThreadGraph where
  /-- Its keys. -/
  tids : Finset ℕ
  /-- Its entries. -/
  threadEvents : ℕ → List Event

namespace ThreadGraph

/-- A new graph. -/
def empty : ThreadGraph := ⟨∅, fun _ => []⟩

/-- `addThreadEvent`. -/
def addThreadEvent (graph : ThreadGraph) (tid : ℕ) (evt : Event) : ThreadGraph :=
  ⟨insert tid graph.tids, Function.update graph.threadEvents tid (graph.threadEvents tid ++ [evt])⟩

/-- `getNrThread`. -/
def getNrThread (graph : ThreadGraph) : ℕ := graph.tids.card

/-- The loop of `buildGraphImpl`. -/
def addEvents (isSyncVar : Addr → Bool) : List Event → ThreadGraph → Except Abort ThreadGraph
  | [], graph => .ok graph
  | evt :: evts, graph => do
    let isVarAccess ← evt.isVarAccessEvent
    if isVarAccess && isSyncVar evt.varAddr then addEvents isSyncVar evts graph
    else
      let tid ← evt.getThread
      addEvents isSyncVar evts (graph.addThreadEvent tid evt)

end ThreadGraph

/-- `buildGraphImpl`. -/
def DepGraph.buildGraphImpl (g : DepGraph) : Except Abort ThreadGraph :=
  ThreadGraph.addEvents g.isSyncVar g.totEvents .empty

/-- A trace that `main` analyses. -/
structure Guarded (file : List Event) (g : DepGraph) : Prop where
  load : loadTrace file = .ok g
  /-- The `assert`. -/
  nrThread : ∃ graph, g.buildGraphImpl = .ok graph ∧ graph.getNrThread < MAX_THREAD

/-- The event names a thread that has no clock. -/
def Event.NamesBeyond (e : Event) : Prop :=
  ¬ e.tid < MAX_THREAD ∨ e.isThreadOpEvent ∧ ¬ e.remoteTid < MAX_THREAD

instance (e : Event) : Decidable e.NamesBeyond := inferInstanceAs (Decidable (_ ∨ _))

/-- The event is an access to the address of a mutex or a condition variable. -/
def DepGraph.SyncAccess (g : DepGraph) (e : Event) : Prop := e.isAccessEvent ∧ e.varAddr ∈ g.syncVars

instance (g : DepGraph) (e : Event) : Decidable (g.SyncAccess e) := inferInstanceAs (Decidable (_ ∧ _))

/-! ### The threads that are counted -/

section Count

variable {isSyncVar : Addr → Bool} {evts : List Event} {graph graph' : ThreadGraph}

theorem addEvents_of_ok (h : ThreadGraph.addEvents isSyncVar evts graph = .ok graph') {t : ℕ} :
    t ∈ graph'.tids ↔ t ∈ graph.tids ∨
      ∃ e ∈ evts, e.tid = t ∧ ¬ (e.isVarAccessEvent = .ok true ∧ isSyncVar e.varAddr) := by
  induction evts generalizing graph with
  | nil =>
    cases h
    simp
  | cons e evts ih =>
    obtain ⟨isVarAccess, hacc, h⟩ := bind_eq_ok.mp h
    by_cases hs : (isVarAccess && isSyncVar e.varAddr) = true
    · rw [if_pos hs] at h
      simp only [Bool.and_eq_true] at hs
      rw [ih h]
      simp [hacc, hs]
    · rw [if_neg hs] at h
      obtain ⟨tid, htid, h⟩ := bind_eq_ok.mp h
      obtain rfl : e.tid = tid := by
        unfold Event.getThread at htid
        split_ifs at htid
        exact Except.ok.inj htid
      have hs' : ¬ (e.isVarAccessEvent = .ok true ∧ isSyncVar e.varAddr) := by
        rintro ⟨hv, ha⟩
        rw [hacc] at hv
        exact hs (by simp [Except.ok.inj hv, ha])
      rw [ih h]
      simp only [ThreadGraph.addThreadEvent, Finset.mem_insert, List.exists_mem_cons_iff]
      rw [and_iff_left hs', eq_comm, or_assoc, or_left_comm]

/-- **The threads that are counted** have an event that is no access to a sync variable. -/
theorem mem_tids_iff {g : DepGraph} (h : g.buildGraphImpl = .ok graph) {t : ℕ} :
    t ∈ graph.tids ↔ ∃ e ∈ g.totEvents, e.tid = t ∧ ¬ (e.isVarAccessEvent = .ok true ∧ g.isSyncVar e.varAddr) := by
  rw [addEvents_of_ok h]
  simp [ThreadGraph.empty]

end Count

/-! ### Indices beyond the clocks -/

section Indices

variable {file : List Event} {g : DepGraph} {evts : List Event} {V : ℕ → VectorClock} {k : ℕ} {ra : RaceAnalyze}
  {e : Event} {isSyncVar : Addr → Bool}

theorem getThreadVC_of_not_lt {m : VarMeta} {t : ℕ} (h : ¬ t < MAX_THREAD) :
    m.getThreadVC t = .error .threadIndex := dif_neg h

/-- A synchronisation of a thread without a clock. -/
theorem handleSyncOpEvent_of_beyond (hinv : AccessInv evts V k ra) (hop : e.isThreadOpEvent ∨ e.isSyncOpEvent)
    (h : e.NamesBeyond) : ra.handleSyncOpEvent ⟨k, e⟩ = .error .threadIndex := by
  have hup : ∀ m : VarMeta, m.updateHB e = .error .threadIndex := by
    intro m
    unfold VarMeta.updateHB
    by_cases hth : e.isThreadOpEvent
    · rw [if_pos hth]
      by_cases ht : e.tid < MAX_THREAD
      · have hremote := h.resolve_left (not_not.mpr ht)
        obtain hc | hj := Event.isThreadOpEvent_iff.mp hth <;>
          simp [VarMeta.handleThreadOpEvent, VarMeta.getThreadVC, hremote.2, *, bind, Except.bind]
      · simp [VarMeta.handleThreadOpEvent, getThreadVC_of_not_lt ht, bind, Except.bind]
    · have ht : ¬ e.tid < MAX_THREAD := h.resolve_right fun hr => hth hr.1
      rw [if_neg hth, if_pos (hop.resolve_left hth)]
      simp [VarMeta.handleSyncOpEvent, getThreadVC_of_not_lt ht, bind, Except.bind]
  unfold RaceAnalyze.handleSyncOpEvent
  by_cases hacq : e.isSyncAcqEvent
  · obtain ⟨ra₁, hra₁, -⟩ := hinv.1.handleSyncRel_of_acq hacq
    simp [hra₁, hup, bind, Except.bind]
  by_cases hrel : e.isSyncRelEvent
  · have hth : e.isThreadOpEvent = false := by
      obtain hr | hr | hr := Event.isSyncRelEvent_iff.mp hrel <;> simp [Event.isThreadOpEvent, hr]
    have ht : ¬ e.tid < MAX_THREAD := h.resolve_right fun hr => by simp [hth] at hr
    simp [RaceAnalyze.handleSyncRel, hacq, hrel, VarMeta.putSyncRel, getThreadVC_of_not_lt ht, bind, Except.bind]
  · simp [RaceAnalyze.handleSyncRel, hacq, hrel, hup, bind, Except.bind, pure, Except.pure]

/-- The events of a loaded graph. -/
theorem kind_of_loaded (h : loadTrace file = .ok g) (he : e ∈ g.totEvents) :
    (e.isThreadOpEvent ∨ e.isSyncOpEvent) ∨ e.isAccessEvent ∧ e.varLen = 1 := by
  rw [(loadTrace_eq_ok h).1, List.mem_filter] at he
  obtain ⟨hop, -⟩ | ⟨hop, -⟩ | ⟨hacc, hlen, -⟩ := mem_expandTrace he.1
  · exact Or.inl (Or.inr hop)
  · exact Or.inl (Or.inl hop)
  · exact Or.inr ⟨hacc, hlen⟩

/-- Which events of a loaded graph are accepted. -/
theorem accepted_iff (h : loadTrace file = .ok g) (he : e ∈ g.totEvents) :
    Accepted g.isSyncVar e ↔ ¬ e.NamesBeyond ∧ ¬ g.SyncAccess e := by
  unfold Accepted Event.NamesBeyond DepGraph.SyncAccess
  push Not
  constructor
  · rintro ⟨ht, ⟨hop, hremote⟩ | hop | ⟨hacc, -, hno⟩⟩
    · exact ⟨⟨ht, fun _ => hremote⟩, fun hacc => by simp [Event.not_access_of_threadOp hop] at hacc⟩
    · refine ⟨⟨ht, fun hth => ?_⟩, fun hacc => by simp [Event.not_access_of_sync hop] at hacc⟩
      obtain hc | hj := Event.isThreadOpEvent_iff.mp hth <;> simp [Event.isSyncOpEvent, *] at hop
    · refine ⟨⟨ht, fun hth => ?_⟩, fun _ => by simpa [DepGraph.isSyncVar] using hno⟩
      simp [Event.not_access_of_threadOp hth] at hacc
  · rintro ⟨⟨ht, hremote⟩, hno⟩
    refine ⟨ht, ?_⟩
    obtain (hop | hop) | ⟨hacc, hlen⟩ := kind_of_loaded h he
    · exact Or.inl ⟨hop, hremote hop⟩
    · exact Or.inr (Or.inl hop)
    · exact Or.inr (Or.inr ⟨hacc, hlen, by simpa [DepGraph.isSyncVar] using hno hacc⟩)

/-- **What stops the loop** at an event of a loaded graph. -/
theorem handleEvent_error_iff (h : loadTrace file = .ok g) (he : g.totEvents[k]? = some e)
    (hra : stateAt g.isSyncVar g.totEvents k = .ok ra) :
    ra.handleEvent g.isSyncVar ⟨k, e⟩ = .error .threadIndex ↔ e.NamesBeyond ∧ ¬ g.SyncAccess e := by
  have hinv := accessInv_stateAt (List.getElem?_eq_some_iff.mp he).1.le hra
  by_cases hs : g.SyncAccess e
  · have hlen : e.varLen = 1 := by
      obtain hop | ⟨-, hlen⟩ := kind_of_loaded h (List.mem_of_getElem? he)
      · have hacc := hs.1
        obtain hop | hop := hop
        · simp [Event.not_access_of_threadOp hop] at hacc
        · simp [Event.not_access_of_sync hop] at hacc
      · exact hlen
    rw [handleEvent_of_syncVar ra hs.1 hlen (by simpa [DepGraph.isSyncVar] using hs.2)]
    simp [hs]
  · rw [and_iff_left hs]
    constructor
    · intro herr
      by_contra hno
      obtain ⟨ra', hra', -⟩ := hinv.handleEvent_of_accepted he (stampAt_eq hra he)
        ((accepted_iff h (List.mem_of_getElem? he)).mpr ⟨hno, hs⟩)
      rw [hra'] at herr
      cases herr
    · intro hbeyond
      unfold RaceAnalyze.handleEvent
      obtain hop | ⟨hacc, hlen⟩ := kind_of_loaded h (List.mem_of_getElem? he)
      · rw [if_pos (by simpa using hop)]
        exact handleSyncOpEvent_of_beyond hinv hop hbeyond
      · have hops : (e.isThreadOpEvent || e.isSyncOpEvent) = false := by
          obtain ha | ha := Event.isAccessEvent_iff.mp hacc <;> simp [Event.isThreadOpEvent, Event.isSyncOpEvent, ha]
        have hno : g.isSyncVar e.varAddr = false := by
          simpa [DepGraph.isSyncVar] using fun ha => hs ⟨hacc, ha⟩
        have ht : ¬ e.tid < MAX_THREAD := hbeyond.resolve_right fun hr => by
          simp only [Bool.or_eq_false_iff] at hops
          simp [hops.1] at hr
        simp [hops, Event.isVarAccessEvent_eq_true.mpr ⟨hacc, hlen⟩, hno, RaceAnalyze.handleVarAccessEvent,
          VarMeta.getRaceEvents, getThreadVC_of_not_lt ht, bind, Except.bind]

/-- **Indices**: the analysis uses one that no clock has if and only if an event names such a thread, and no access to
a sync variable stands in front of it. -/
theorem analyze_eq_threadIndex_iff (h : loadTrace file = .ok g) : analyze g = .error .threadIndex ↔
    ∃ (k : ℕ) (e : Event), g.totEvents[k]? = some e ∧ e.NamesBeyond ∧
      ∀ j ≤ k, ∀ f, g.totEvents[j]? = some f → ¬ g.SyncAccess f := by
  have hbefore : ∀ {n : ℕ} {ra : RaceAnalyze}, n ≤ g.totEvents.length →
      stateAt g.isSyncVar g.totEvents n = .ok ra → ∀ j < n, ∀ f, g.totEvents[j]? = some f →
        ¬ f.NamesBeyond ∧ ¬ g.SyncAccess f := by
    intro n ra hn hra j hj f hf
    obtain ⟨ra', hra'⟩ := stateAt_ok_of_le hj hn hra
    obtain ⟨ra₁, -, hstep⟩ := (stateAt_succ_eq_ok hf).mp hra'
    exact (accepted_iff h (List.mem_of_getElem? hf)).mp (accepted_of_ok hstep)
  constructor
  · intro herr
    obtain ⟨k, e, ra, he, hra, herr⟩ := analyzeLoop_error herr
    obtain ⟨hbeyond, hno⟩ := (handleEvent_error_iff h he hra).mp herr
    refine ⟨k, e, he, hbeyond, fun j hj f hf => ?_⟩
    by_cases hlt : j < k
    · exact (hbefore (List.getElem?_eq_some_iff.mp he).1.le hra j hlt f hf).2
    · obtain rfl : j = k := by omega
      obtain rfl : e = f := Option.some.inj (he.symm.trans hf)
      exact hno
  · rintro ⟨k, e, he, hbeyond, hno⟩
    cases hres : analyze g with
    | ok ra =>
      have hmem := List.mem_of_getElem? he
      exact absurd hbeyond ((accepted_iff h hmem).mp (analyzeLoop_ok_iff.mp ⟨ra, hres⟩ e hmem)).1
    | error b =>
      -- the loop stops at `k` or in front of it, and not at an access to a sync variable
      obtain ⟨n, f, ra, hf, hra, herr⟩ := analyzeLoop_error hres
      have hle : n ≤ k := by
        by_contra hlt
        exact (hbefore (List.getElem?_eq_some_iff.mp hf).1.le hra k (by omega) e he).1 hbeyond
      have hbeyond' : f.NamesBeyond := by
        by_contra hin
        have hinv := accessInv_stateAt (List.getElem?_eq_some_iff.mp hf).1.le hra
        obtain ⟨ra', hra', -⟩ := hinv.handleEvent_of_accepted hf (stampAt_eq hra hf)
          ((accepted_iff h (List.mem_of_getElem? hf)).mpr ⟨hin, hno n hle f hf⟩)
        rw [hra'] at herr
        cases herr
      rw [(handleEvent_error_iff h hf hra).mpr ⟨hbeyond', hno n hle f hf⟩] at herr
      cases herr
      rfl

/-- **The thread-count guard**: behind the `assert` all indices are in range if and only if in front of every event that
names a thread beyond the clocks, or at it, the analysis has stopped at an access to a sync variable. -/
theorem guarded_inRange_iff (h : Guarded file g) : analyze g ≠ .error .threadIndex ↔
    ∀ (k : ℕ) (e : Event), g.totEvents[k]? = some e → e.NamesBeyond →
      ∃ j ≤ k, ∃ f, g.totEvents[j]? = some f ∧ g.SyncAccess f := by
  rw [Ne, analyze_eq_threadIndex_iff h.load]
  push Not
  rfl

/-- A file whose graph is `g` and whose threads are few. -/
theorem guarded_of_load (hload : loadTrace file = .ok g) (graph : ThreadGraph) (hgraph : g.buildGraphImpl = .ok graph)
    (hfew : graph.getNrThread < MAX_THREAD) : Guarded file g :=
  ⟨hload, graph, hgraph, hfew⟩

/-- Thread 0 stores to a mutex that it holds, as thread 1 does; then thread 60 locks it. -/
def stoppedFile : List Event := storedMutexFile ++ [.makeSyncOpEvent 4 3 60 .lock 8]

theorem guarded_inRange_iff_stopped : ∃ g, Guarded stoppedFile g ∧ (analyze g ≠ .error .threadIndex ↔
    ∀ (k : ℕ) (e : Event), g.totEvents[k]? = some e → e.NamesBeyond →
      ∃ j ≤ k, ∃ f, g.totEvents[j]? = some f ∧ g.SyncAccess f) := by
  have hguard : Guarded stoppedFile ⟨stoppedFile, {8}, {8}⟩ := guarded_of_load rfl _ rfl (by decide)
  exact ⟨_, hguard, guarded_inRange_iff hguard⟩

/-- Thread 0 creates a thread beyond the clocks, which logs nothing. -/
def strangerFile : List Event := [.makeThreadEvent 1 0 0 .create 50]

/-- The file passes the `assert`, and the analysis uses an index that no clock has. -/
theorem stranger_beyond : ∃ g, Guarded strangerFile g ∧ analyze g = .error .threadIndex :=
  ⟨⟨strangerFile, ∅, ∅⟩, guarded_of_load rfl _ rfl (by decide), rfl⟩

end Indices

end Schnauzer
