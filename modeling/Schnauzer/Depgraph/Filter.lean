import Schnauzer.Depgraph.LoadTrace
import Schnauzer.Depgraph.Races
import Schnauzer.Lib.KeptPlaces

/-!
# What the loader leaves out

The analysis runs on the events that `loadTrace` keeps. An access that is left out passes its thread's knowledge on to
its own thread only, and its address has no unordered conflict; so nothing is lost. What is not left out are the accesses
to an address that is shared and is the address of a mutex or a condition variable too.

## What is proved

* `mem_reportedIn` — the pairs reported for the events that stay, as pairs of places among all the events.
* `loadTrace_exact` — the addresses that are shared, and that the pairs are those of the unfiltered events.
* `analyze_ok_iff_loaded` — when the analysis of a loaded trace runs to its end.
-/

namespace Schnauzer

open CausalOrder RaceAnalyze

/-- The pairs that are reported for the events of `evts` that stay, as pairs of places in `evts`. -/
def reportedIn (keep : Event → Bool) (evts : List Event) (ra : RaceAnalyze) : Set (ℕ × ℕ) :=
  {p | ∃ k m, (k, m) ∈ ra.getTotalRaceEventPair ∧ (keptPlaces keep evts)[k]? = some p.1 ∧
    (keptPlaces keep evts)[m]? = some p.2}

/-- The event is no access to an address of `syncVars`. -/
def withoutSync (syncVars : Finset Addr) (evt : Event) : Bool :=
  !(evt.isAccessEvent && decide (evt.varAddr ∈ syncVars))

/-- The graph of all events, none removed. -/
def DepGraph.unfiltered (g : DepGraph) (file : List Event) : DepGraph :=
  { g with totEvents := expandTrace file }

/-- The graph of all events but the accesses to sync variables, which `analyze` accepts nowhere. -/
def DepGraph.unfilteredNoSync (g : DepGraph) (file : List Event) : DepGraph :=
  { g with totEvents := (expandTrace file).filter (withoutSync g.syncVars) }

/-! ### Leaving accesses out -/

section Keep

variable {keep : Event → Bool} {evts : List Event} {dropped : Addr → Prop} {i j k m : ℕ} {a : Addr}

/-- What is left out are the accesses to some addresses. -/
def DropsAccesses (keep : Event → Bool) (dropped : Addr → Prop) : Prop :=
  ∀ e, keep e = false ↔ e.isAccessEvent ∧ dropped e.varAddr

theorem dropsAccesses_keeps (shared : Finset Addr) : DropsAccesses (Loader.keeps shared) (· ∉ shared) := by
  intro e
  cases hacc : e.isAccessEvent with
  | false => simp [keeps_of_not_access hacc]
  | true => simpa using (@keeps_of_access shared e hacc).not

theorem dropsAccesses_withoutSync (syncVars : Finset Addr) :
    DropsAccesses (withoutSync syncVars) (· ∈ syncVars) := by
  intro e
  simp [withoutSync]

/-- An access has to do with its thread only. -/
theorem Event.nodes_of_access {e : Event} (h : e.isAccessEvent) :
    (∀ y ∈ e.reads, y = .thr e.tid) ∧ ∀ y ∈ e.writes, y = .thr e.tid := by
  refine ⟨fun y hy => ?_, fun y hy => ?_⟩
  · rcases hy with hy | ⟨hop, -⟩ | ⟨hop, -⟩
    · exact hy
    · rcases Event.isAccessEvent_iff.mp h with h | h <;> simp [hop] at h
    · rcases Event.isAccessEvent_iff.mp h with h | h <;> simp [isSyncAcqEvent, h] at hop
  · rcases hy with hy | ⟨hop, -⟩ | ⟨hop, -⟩
    · exact hy
    · rcases Event.isAccessEvent_iff.mp h with h | h <;> simp [hop] at h
    · rcases Event.isAccessEvent_iff.mp h with h | h <;> simp [isSyncRelEvent, h] at hop

/-- Happens-before among the events that stay. -/
theorem happensBefore_filter (hd : DropsAccesses keep dropped) (hk : (keptPlaces keep evts)[k]? = some i)
    (hm : (keptPlaces keep evts)[m]? = some j) :
    HappensBefore (evts.filter keep) k m ↔ HappensBefore evts i j :=
  @beforeIn_filter _ keep evts _ _ _ _ _ Event.reads Event.writes
    (fun e _ he => ⟨.thr e.tid, Event.nodes_of_access ((hd e).mp he).1⟩) hk hm

theorem unorderedConflict_filter (hd : DropsAccesses keep dropped) (hk : (keptPlaces keep evts)[k]? = some i)
    (hm : (keptPlaces keep evts)[m]? = some j) :
    UnorderedConflict (evts.filter keep) a k m ↔ UnorderedConflict evts a i j := by
  constructor
  · rintro ⟨hlt, hacc, hun⟩
    rw [getElem?_filter hk, getElem?_filter hm] at hacc
    exact ⟨(kept_lt_iff hk hm).mp hlt, hacc, fun hb => hun ((happensBefore_filter hd hk hm).mpr hb)⟩
  · rintro ⟨hlt, hacc, hun⟩
    rw [← getElem?_filter hk, ← getElem?_filter hm] at hacc
    exact ⟨(kept_lt_iff hk hm).mpr hlt, hacc, fun hb => hun ((happensBefore_filter hd hk hm).mp hb)⟩

/-- The stores to an address that is not left out all stay. -/
theorem noStoreBetween_filter (hd : DropsAccesses keep dropped) (ha : ¬ dropped a)
    (hk : (keptPlaces keep evts)[k]? = some i) (hm : (keptPlaces keep evts)[m]? = some j) :
    NoStoreBetween (evts.filter keep) a k m ↔ NoStoreBetween evts a i j := by
  constructor
  · intro hno l f hil hlj hf hst hfa
    have hkeep : keep f = true := by
      cases hkeep : keep f with
      | true => rfl
      | false => exact absurd (hfa ▸ ((hd f).mp hkeep).2) ha
    obtain ⟨n, hn⟩ := List.mem_iff_getElem?.mp (mem_keptPlaces.mpr ⟨f, hf, hkeep⟩)
    exact hno n f ((kept_lt_iff hk hn).mpr hil) ((kept_lt_iff hn hm).mpr hlj)
      ((getElem?_filter hn).trans hf) hst hfa
  · intro hno n f hkn hnm hf hst hfa
    obtain ⟨l, hl, hf'⟩ := exists_kept hf
    exact hno l f ((kept_lt_iff hk hl).mp hkn) ((kept_lt_iff hl hm).mp hnm) hf' hst hfa

/-- **The pairs among the events that stay**: the pairs among all events, on the addresses that are not left out. -/
theorem mem_reportedIn (hd : DropsAccesses keep dropped) {g : DepGraph} {ra : RaceAnalyze}
    (hg : g.totEvents = evts.filter keep) (h : analyze g = .ok ra) :
    (i, j) ∈ reportedIn keep evts ra ↔ ∃ a, ¬ dropped a ∧ UnorderedConflict evts a i j ∧ NoStoreBetween evts a i j := by
  have hkeep : ∀ {i : ℕ} {e : Event}, evts[i]? = some e → ¬ dropped e.varAddr →
      ∃ k : ℕ, (keptPlaces keep evts)[k]? = some i := by
    intro i e he hno
    refine List.mem_iff_getElem?.mp (mem_keptPlaces.mpr ⟨e, he, ?_⟩)
    cases hke : keep e with
    | true => rfl
    | false => exact absurd ((hd e).mp hke).2 hno
  constructor
  · rintro ⟨k, m, hmem, hk, hm⟩
    obtain ⟨a, hun, hno⟩ := (mem_pairs h).mp hmem
    rw [hg] at hun hno
    have ha : ¬ dropped a := by
      obtain ⟨e, -, he, -, hea, -, rfl, -⟩ := hun.accesses
      intro hdrop
      have hstay := (List.mem_filter.mp (List.mem_of_getElem? he)).2
      rw [(hd e).mpr ⟨hea, hdrop⟩] at hstay
      cases hstay
    exact ⟨a, ha, (unorderedConflict_filter hd hk hm).mp hun, (noStoreBetween_filter hd ha hk hm).mp hno⟩
  · rintro ⟨a, ha, hun, hno⟩
    obtain ⟨e, f, he, hf, -, -, hea, hfa, -⟩ := hun.accesses
    obtain ⟨k, hk⟩ := hkeep he (hea ▸ ha)
    obtain ⟨m, hm⟩ := hkeep hf (hfa ▸ ha)
    refine ⟨k, m, (mem_pairs h).mpr ⟨a, ?_, ?_⟩, hk, hm⟩
    · rw [hg]
      exact (unorderedConflict_filter hd hk hm).mpr hun
    · rw [hg]
      exact (noStoreBetween_filter hd ha hk hm).mpr hno

end Keep

/-! ### The filtered events -/

section Loaded

variable {file : List Event} {g : DepGraph} {a : Addr} {i j : ℕ}

/-- An address with an unordered conflict is shared. -/
theorem UnorderedConflict.sharedIn {evts : List Event} (h : UnorderedConflict evts a i j) : SharedIn evts a := by
  obtain ⟨e, f, he, hf, hea, hfa, hae, haf, hst⟩ := h.accesses
  have he' := List.mem_of_getElem? he
  have hf' := List.mem_of_getElem? hf
  refine ⟨⟨e, he', f, hf', hea, hfa, hae, haf, fun htid => ?_⟩, ?_⟩
  · exact h.unordered (happensBefore_of_tid_eq h.lt he hf htid)
  · rcases hst with hst | hst
    · exact ⟨e, he', hst, hae⟩
    · exact ⟨f, hf', hst, haf⟩

/-- No access to a sync variable is among the events of an accepted graph. -/
theorem not_syncVar_of_ok {ra : RaceAnalyze} (h : analyze g = .ok ra) {e : Event} (he : e ∈ g.totEvents)
    (hacc : e.isAccessEvent) : e.varAddr ∉ g.syncVars := by
  have haccepted := analyzeLoop_ok_iff.mp ⟨ra, h⟩ e he
  rcases haccepted.2 with ⟨hop, -⟩ | hop | ⟨-, -, hno⟩
  · simp [Event.not_access_of_threadOp hop] at hacc
  · simp [Event.not_access_of_sync hop] at hacc
  · simpa [DepGraph.isSyncVar] using hno

/-- The pairs of the filtered events. -/
theorem mem_reportedIn_loaded (h : loadTrace file = .ok g) {ra : RaceAnalyze} (hra : analyze g = .ok ra) :
    (i, j) ∈ reportedIn (Loader.keeps g.sharedVars) (expandTrace file) ra ↔
      ∃ a, a ∉ g.syncVars ∧ UnorderedConflict (expandTrace file) a i j ∧ NoStoreBetween (expandTrace file) a i j := by
  obtain ⟨htot, hshared, -⟩ := loadTrace_eq_ok h
  rw [mem_reportedIn (dropsAccesses_keeps g.sharedVars) htot hra]
  constructor
  · rintro ⟨a, hmem, hun, hno⟩
    refine ⟨a, ?_, hun, hno⟩
    obtain ⟨e, -, he, -, hea, -, rfl, -⟩ := hun.accesses
    refine not_syncVar_of_ok hra ?_ hea
    rw [htot, List.mem_filter]
    exact ⟨List.mem_of_getElem? he, (keeps_of_access hea).mpr (not_not.mp hmem)⟩
  · rintro ⟨a, -, hun, hno⟩
    exact ⟨a, not_not.mpr ((hshared a).mpr hun.sharedIn), hun, hno⟩

/-- **Filtering loses no race and adds none.** The shared addresses are those that two threads access and one stores to.
Where the analysis accepts all the expanded events, it accepts those that stay, and reports the same pairs. Accesses to
sync variables make the analysis stop; without them it reports the same pairs too. -/
theorem loadTrace_exact (h : loadTrace file = .ok g) :
    (∀ a, a ∈ g.sharedVars ↔ SharedIn (expandTrace file) a) ∧
      (∀ raAll, analyze (g.unfiltered file) = .ok raAll → ∃ ra, analyze g = .ok ra ∧
        ∀ i j, (i, j) ∈ reportedIn (Loader.keeps g.sharedVars) (expandTrace file) ra ↔
          (i, j) ∈ raAll.getTotalRaceEventPair) ∧
      ∀ ra raAll, analyze g = .ok ra → analyze (g.unfilteredNoSync file) = .ok raAll →
        ∀ i j, (i, j) ∈ reportedIn (Loader.keeps g.sharedVars) (expandTrace file) ra ↔
          (i, j) ∈ reportedIn (withoutSync g.syncVars) (expandTrace file) raAll := by
  obtain ⟨htot, hshared, -⟩ := loadTrace_eq_ok h
  refine ⟨hshared, fun raAll hall => ?_, fun ra raAll hra hall i j => ?_⟩
  · obtain ⟨ra, hra⟩ : ∃ ra, analyze g = .ok ra := by
      apply analyzeLoop_ok_iff.mpr
      intro e he
      rw [htot] at he
      exact analyzeLoop_ok_iff.mp ⟨raAll, hall⟩ e (List.mem_filter.mp he).1
    refine ⟨ra, hra, fun i j => ?_⟩
    rw [mem_reportedIn_loaded h hra, mem_pairs hall]
    constructor
    · rintro ⟨a, -, hrest⟩
      exact ⟨a, hrest⟩
    · rintro ⟨a, hun, hno⟩
      refine ⟨a, ?_, hun, hno⟩
      obtain ⟨e, -, he, -, hea, -, rfl, -⟩ := hun.accesses
      exact not_syncVar_of_ok hall (List.mem_of_getElem? he) hea
  · rw [mem_reportedIn_loaded h hra, mem_reportedIn (dropsAccesses_withoutSync g.syncVars) rfl hall]

/-- Thread 1 loads byte 8 and its own byte 24, thread 2 holds mutex 16 and stores to bytes 8 and 9. -/
def privateByteFile : List Event :=
  [.makeVarAccessEvent 1 0 1 .ld 8, .makeVarAccessEvent 2 1 1 .st 24, .makeSyncOpEvent 3 2 2 .lock 16,
    .makeArrayAccessEvent 4 3 2 .st 8 2]

theorem loadTrace_exact_privateByteFile : ∃ g, loadTrace privateByteFile = .ok g ∧
    (∀ a, a ∈ g.sharedVars ↔ SharedIn (expandTrace privateByteFile) a) ∧
      (∀ raAll, analyze (g.unfiltered privateByteFile) = .ok raAll → ∃ ra, analyze g = .ok ra ∧
        ∀ i j, (i, j) ∈ reportedIn (Loader.keeps g.sharedVars) (expandTrace privateByteFile) ra ↔
          (i, j) ∈ raAll.getTotalRaceEventPair) ∧
      ∀ ra raAll, analyze g = .ok ra → analyze (g.unfilteredNoSync privateByteFile) = .ok raAll →
        ∀ i j, (i, j) ∈ reportedIn (Loader.keeps g.sharedVars) (expandTrace privateByteFile) ra ↔
          (i, j) ∈ reportedIn (withoutSync g.syncVars) (expandTrace privateByteFile) raAll := by
  obtain ⟨g, h⟩ : ∃ g, loadTrace privateByteFile = .ok g := exists_loadTrace (by decide)
  exact ⟨g, h, loadTrace_exact h⟩

/-! ### Where the analysis stops -/

/-- The last branch of the loop. -/
theorem handleEvent_of_syncVar {isSyncVar : Addr → Bool} (ra : RaceAnalyze) {p : EventPtr} (hacc : p.evt.isAccessEvent)
    (hlen : p.evt.varLen = 1) (hsync : isSyncVar p.evt.varAddr) : ra.handleEvent isSyncVar p = .error .analyze := by
  have hops : (p.evt.isThreadOpEvent || p.evt.isSyncOpEvent) = false := by
    rcases Event.isAccessEvent_iff.mp hacc with h | h <;> simp [Event.isThreadOpEvent, Event.isSyncOpEvent, h]
  unfold handleEvent
  rw [hops, Event.isVarAccessEvent_eq_true.mpr ⟨hacc, hlen⟩]
  simp [hsync, bind, Except.bind, throw, throwThe, MonadExceptOf.throw]

/-- An event of the graph is accepted, or is an access to a sync variable. -/
theorem accepted_or_syncAccess (h : loadTrace file = .ok g) (htid : ∀ e ∈ file, e.tid < MAX_THREAD)
    (hremote : ∀ e ∈ file, e.isThreadOpEvent → e.remoteTid < MAX_THREAD) {e : Event} (he : e ∈ g.totEvents) :
    Accepted g.isSyncVar e ∨
      e.isAccessEvent ∧ e.varLen = 1 ∧ e.varAddr ∈ g.sharedVars ∧ e.varAddr ∈ g.syncVars := by
  rw [(loadTrace_eq_ok h).1, List.mem_filter] at he
  rcases mem_expandTrace he.1 with ⟨hop, hmem⟩ | ⟨hop, hmem⟩ | ⟨hacc, hlen, f, hf, l, -, -, rfl⟩
  · exact Or.inl ⟨htid e hmem, Or.inr (Or.inl hop)⟩
  · exact Or.inl ⟨htid e hmem, Or.inl ⟨hop, hremote e hmem hop⟩⟩
  · by_cases hs : (f.expandArrayAccessEvent l).varAddr ∈ g.syncVars
    · exact Or.inr ⟨hacc, hlen, (keeps_of_access hacc).mp he.2, hs⟩
    · refine Or.inl ⟨htid f hf, Or.inr (Or.inr ⟨hacc, hlen, ?_⟩)⟩
      simpa [DepGraph.isSyncVar] using hs

/-- When the loop reaches the end of a loaded trace. -/
theorem analyze_loaded_ok_iff (h : loadTrace file = .ok g) (htid : ∀ e ∈ file, e.tid < MAX_THREAD)
    (hremote : ∀ e ∈ file, e.isThreadOpEvent → e.remoteTid < MAX_THREAD) : (∃ ra, analyze g = .ok ra) ↔
      ¬ ∃ a, SharedIn (expandTrace file) a ∧ SyncIn (expandTrace file) a := by
  obtain ⟨htot, hshared, hsync⟩ := loadTrace_eq_ok h
  constructor
  · rintro ⟨ra, hra⟩ ⟨a, hsh, hsy⟩
    obtain ⟨e, he, -, -, hea, -, rfl, -⟩ := hsh.1
    refine not_syncVar_of_ok hra (e := e) ?_ hea ((hsync _).mpr hsy)
    rw [htot, List.mem_filter]
    exact ⟨he, (keeps_of_access hea).mpr ((hshared _).mpr hsh)⟩
  · intro hno
    refine analyzeLoop_ok_iff.mpr fun e he => (accepted_or_syncAccess h htid hremote he).resolve_right ?_
    rintro ⟨-, -, hsh, hsy⟩
    exact hno ⟨_, (hshared _).mp hsh, (hsync _).mp hsy⟩

/-- So it does if no address of a store is synchronised on. -/
theorem exists_analyze (h : loadTrace file = .ok g) (htid : ∀ e ∈ file, e.tid < MAX_THREAD)
    (hremote : ∀ e ∈ file, e.isThreadOpEvent → e.remoteTid < MAX_THREAD)
    (hno : ∀ e ∈ expandTrace file, ∀ f ∈ expandTrace file, e.opTy = .st → f.isSyncOpEvent → f.varAddr ≠ e.varAddr) :
    ∃ ra, analyze g = .ok ra := by
  apply (analyze_loaded_ok_iff h htid hremote).mpr
  rintro ⟨a, ⟨-, e, he, hst, rfl⟩, f, hf, hsync, haddr⟩
  exact hno e he f hf hst hsync haddr

/-- Only the last `assert` stops the loop. -/
theorem analyze_loaded_error (h : loadTrace file = .ok g) (htid : ∀ e ∈ file, e.tid < MAX_THREAD)
    (hremote : ∀ e ∈ file, e.isThreadOpEvent → e.remoteTid < MAX_THREAD) {b : Abort} (hb : analyze g = .error b) :
    b = .analyze := by
  obtain ⟨k, e, ra, he, hra, herr⟩ := analyzeLoop_error hb
  rcases accepted_or_syncAccess h htid hremote (List.mem_of_getElem? he) with hacc | ⟨hacc, hlen, -, hsy⟩
  · have hinv := accessInv_stateAt (List.getElem?_eq_some_iff.mp he).1.le hra
    obtain ⟨ra', hra', -⟩ := hinv.handleEvent_of_accepted he (stampAt_eq hra he) hacc
    rw [hra'] at herr
    cases herr
  · rw [handleEvent_of_syncVar ra hacc hlen (by simpa [DepGraph.isSyncVar] using hsy)] at herr
    cases herr
    rfl

theorem analyze_loaded_error_iff (h : loadTrace file = .ok g) (htid : ∀ e ∈ file, e.tid < MAX_THREAD)
    (hremote : ∀ e ∈ file, e.isThreadOpEvent → e.remoteTid < MAX_THREAD) : analyze g = .error .analyze ↔
      ∃ a, SharedIn (expandTrace file) a ∧ SyncIn (expandTrace file) a := by
  have hok := analyze_loaded_ok_iff h htid hremote
  constructor
  · intro herr
    by_contra hno
    obtain ⟨ra, hra⟩ := hok.mpr hno
    rw [herr] at hra
    cases hra
  · intro hex
    cases hres : analyze g with
    | ok ra => exact absurd hex (hok.mp ⟨ra, hres⟩)
    | error b => rw [analyze_loaded_error h htid hremote hres]

/-- **The analysis of a loaded trace** runs to its end exactly when no address is shared and the address of a mutex or a
condition variable too; else it stops at its last `assert`. -/
theorem analyze_ok_iff_loaded (h : loadTrace file = .ok g) (htid : ∀ e ∈ file, e.tid < MAX_THREAD)
    (hremote : ∀ e ∈ file, e.isThreadOpEvent → e.remoteTid < MAX_THREAD) :
    ((∃ ra, analyze g = .ok ra) ↔ ¬ ∃ a, SharedIn (expandTrace file) a ∧ SyncIn (expandTrace file) a) ∧
      (analyze g = .error .analyze ↔ ∃ a, SharedIn (expandTrace file) a ∧ SyncIn (expandTrace file) a) :=
  ⟨analyze_loaded_ok_iff h htid hremote, analyze_loaded_error_iff h htid hremote⟩

/-- Thread 0 locks the mutex at 8 and stores to its first byte, as thread 1 does. -/
def storedMutexFile : List Event :=
  [.makeSyncOpEvent 1 0 0 .lock 8, .makeVarAccessEvent 2 1 0 .st 8, .makeVarAccessEvent 3 2 1 .st 8]

/-- The file is loaded, and the analysis stops at its last `assert`. -/
theorem storedMutex_stops : (∀ e ∈ storedMutexFile, e.tid < MAX_THREAD) ∧
    ∃ g, loadTrace storedMutexFile = .ok g ∧ analyze g = .error .analyze ∧ ¬ ∃ ra, analyze g = .ok ra := by
  refine ⟨by decide, ?_⟩
  obtain ⟨g, h⟩ : ∃ g, loadTrace storedMutexFile = .ok g := exists_loadTrace (by decide)
  have hex : ∃ a, SharedIn (expandTrace storedMutexFile) a ∧ SyncIn (expandTrace storedMutexFile) a :=
    ⟨8, by decide⟩
  have herr := (analyze_loaded_error_iff h (by decide) (by decide)).mpr hex
  refine ⟨g, h, herr, ?_⟩
  rintro ⟨ra, hra⟩
  rw [herr] at hra
  cases hra

theorem analyze_ok_iff_loaded_privateByteFile : ∃ g, loadTrace privateByteFile = .ok g ∧
    ((∃ ra, analyze g = .ok ra) ↔
      ¬ ∃ a, SharedIn (expandTrace privateByteFile) a ∧ SyncIn (expandTrace privateByteFile) a) ∧
    (analyze g = .error .analyze ↔
      ∃ a, SharedIn (expandTrace privateByteFile) a ∧ SyncIn (expandTrace privateByteFile) a) := by
  obtain ⟨g, h⟩ : ∃ g, loadTrace privateByteFile = .ok g := exists_loadTrace (by decide)
  exact ⟨g, h, analyze_ok_iff_loaded h (by decide) (by decide)⟩

end Loaded

end Schnauzer
