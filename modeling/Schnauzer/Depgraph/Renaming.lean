import Schnauzer.Depgraph.TracePrefix

/-!
# Other names for threads and addresses

No two runs of a program have the same addresses, and which thread gets which number depends on who registers first. The
analysis keeps its sets and clocks in tables over addresses and thread numbers. Two trace files that differ in these names
only get the same report.

## What is proved

* `analyze_renamed` — **the analysis of a renamed trace** reports the pairs of places that it reports for the trace.
-/

namespace Schnauzer

open CausalOrder RaceAnalyze

variable {τ : ℕ → ℕ} {φ : Addr → Addr}

/-- The node that stands for a node. -/
def Node.rename (τ : ℕ → ℕ) (φ : Addr → Addr) : Node → Node
  | .thr t => .thr (τ t)
  | .var a => .var (φ a)

theorem Node.rename_injective (hτ : Function.Injective τ) (hφ : Function.Injective φ) :
    Function.Injective (Node.rename τ φ) := by
  intro x y h
  cases x with
  | thr t =>
    cases y with
    | thr u => exact congrArg Node.thr (hτ (Node.thr.inj h))
    | var b => cases h
  | var a =>
    cases y with
    | thr u => cases h
    | var b => exact congrArg Node.var (hφ (Node.var.inj h))

/-- An event of the file under other names: `τ` of a thread and `φ` of an address or, for an access, of each byte. The
instruction may be any. -/
structure Event.Renamed (τ : ℕ → ℕ) (φ : Addr → Addr) (e e' : Event) : Prop where
  opTy : e'.opTy = e.opTy
  timestamp : e'.timestamp = e.timestamp
  varLen : e'.varLen = e.varLen
  tid : e'.tid = τ e.tid
  remoteTid : e.isThreadOpEvent → e'.remoteTid = τ e.remoteTid
  sync : e.isSyncOpEvent → e'.varAddr = φ e.varAddr
  bytes : e.isAccessEvent → ∀ k < e.varLen, (e'.varAddr + k) % UInt64.size = φ ((e.varAddr + k) % UInt64.size)

/-- An expanded event under other names. -/
structure Event.RenamedByte (τ : ℕ → ℕ) (φ : Addr → Addr) (e e' : Event) : Prop where
  opTy : e'.opTy = e.opTy
  varLen : e'.varLen = e.varLen
  tid : e'.tid = τ e.tid
  remoteTid : e.isThreadOpEvent → e'.remoteTid = τ e.remoteTid
  varAddr : ¬ e.isThreadOpEvent → e'.varAddr = φ e.varAddr

namespace Event

variable {e e' : Event}

/-- **An event and its bytes** are renamed alike. -/
theorem Renamed.expand (h : Renamed τ φ e e') : List.Forall₂ (RenamedByte τ φ) e.expand e'.expand := by
  unfold Event.expand isSyncOpEvent isAccessEvent isThreadOpEvent
  rw [h.opTy, h.varLen]
  split_ifs with hs ha ht
  · refine .cons ⟨h.opTy, h.varLen, h.tid, h.remoteTid, fun _ => h.sync hs⟩ .nil
  · rw [List.forall₂_map_left_iff, List.forall₂_map_right_iff, List.forall₂_same]
    intro k hk
    exact ⟨h.opTy, rfl, h.tid, h.remoteTid, fun _ => h.bytes ha k (List.mem_range.mp hk)⟩
  · refine .cons ⟨h.opTy, h.varLen, h.tid, h.remoteTid, fun hno => absurd ht hno⟩ .nil
  · exact .nil

theorem RenamedByte.isAccessEvent (h : RenamedByte τ φ e e') : e'.isAccessEvent = e.isAccessEvent := by
  unfold Event.isAccessEvent
  rw [h.opTy]

theorem RenamedByte.isSyncOpEvent (h : RenamedByte τ φ e e') : e'.isSyncOpEvent = e.isSyncOpEvent := by
  unfold Event.isSyncOpEvent
  rw [h.opTy]

theorem RenamedByte.isThreadOpEvent (h : RenamedByte τ φ e e') : e'.isThreadOpEvent = e.isThreadOpEvent := by
  unfold Event.isThreadOpEvent
  rw [h.opTy]

theorem not_threadOp_of_access (h : e.isAccessEvent) : ¬ e.isThreadOpEvent := by
  intro ht
  rw [not_access_of_threadOp ht] at h
  cases h

theorem not_threadOp_of_sync (h : e.isSyncOpEvent) : ¬ e.isThreadOpEvent := by
  intro ht
  rcases isThreadOpEvent_iff.mp ht with hop | hop
  · simp [Event.isSyncOpEvent, hop] at h
  · simp [Event.isSyncOpEvent, hop] at h

theorem RenamedByte.access (h : RenamedByte τ φ e e') (hacc : e.isAccessEvent) : e'.varAddr = φ e.varAddr :=
  h.varAddr (not_threadOp_of_access hacc)

/-- What it reads. -/
theorem RenamedByte.reads (h : RenamedByte τ φ e e') : e'.reads = Node.rename τ φ '' e.reads := by
  have hacq : e'.isSyncAcqEvent = e.isSyncAcqEvent := by
    unfold isSyncAcqEvent
    rw [h.opTy]
  have haddr : e.isSyncAcqEvent → e'.varAddr = φ e.varAddr := fun hs =>
    h.varAddr (not_threadOp_of_sync (isSyncOpEvent_iff.mpr (Or.inl hs)))
  ext x
  constructor
  · rintro (rfl | ⟨hj, rfl⟩ | ⟨hs, rfl⟩)
    · exact ⟨_, e.mem_reads_self, congrArg Node.thr h.tid.symm⟩
    · have hj' : e.opTy = .join := h.opTy ▸ hj
      exact ⟨_, Or.inr (Or.inl ⟨hj', rfl⟩),
        congrArg Node.thr (h.remoteTid (isThreadOpEvent_iff.mpr (Or.inr hj'))).symm⟩
    · rw [hacq] at hs
      exact ⟨_, Or.inr (Or.inr ⟨hs, rfl⟩), congrArg Node.var (haddr hs).symm⟩
  · rintro ⟨y, rfl | ⟨hj, rfl⟩ | ⟨hs, rfl⟩, rfl⟩
    · exact Or.inl (congrArg Node.thr h.tid.symm)
    · exact Or.inr (Or.inl ⟨h.opTy.trans hj,
        congrArg Node.thr (h.remoteTid (isThreadOpEvent_iff.mpr (Or.inr hj))).symm⟩)
    · exact Or.inr (Or.inr ⟨hacq.trans hs, congrArg Node.var (haddr hs).symm⟩)

/-- What it writes. -/
theorem RenamedByte.writes (h : RenamedByte τ φ e e') : e'.writes = Node.rename τ φ '' e.writes := by
  have hrel : e'.isSyncRelEvent = e.isSyncRelEvent := by
    unfold isSyncRelEvent
    rw [h.opTy]
  have haddr : e.isSyncRelEvent → e'.varAddr = φ e.varAddr := fun hs =>
    h.varAddr (not_threadOp_of_sync (isSyncOpEvent_iff.mpr (Or.inr (Or.inl hs))))
  ext x
  constructor
  · rintro (rfl | ⟨hj, rfl⟩ | ⟨hs, rfl⟩)
    · exact ⟨_, e.mem_writes_self, congrArg Node.thr h.tid.symm⟩
    · have hj' : e.opTy = .create := h.opTy ▸ hj
      exact ⟨_, Or.inr (Or.inl ⟨hj', rfl⟩),
        congrArg Node.thr (h.remoteTid (isThreadOpEvent_iff.mpr (Or.inl hj'))).symm⟩
    · rw [hrel] at hs
      exact ⟨_, Or.inr (Or.inr ⟨hs, rfl⟩), congrArg Node.var (haddr hs).symm⟩
  · rintro ⟨y, rfl | ⟨hj, rfl⟩ | ⟨hs, rfl⟩, rfl⟩
    · exact Or.inl (congrArg Node.thr h.tid.symm)
    · exact Or.inr (Or.inl ⟨h.opTy.trans hj,
        congrArg Node.thr (h.remoteTid (isThreadOpEvent_iff.mpr (Or.inl hj))).symm⟩)
    · exact Or.inr (Or.inr ⟨hrel.trans hs, congrArg Node.var (haddr hs).symm⟩)

end Event

/-! ### The expanded events -/

section Bytes

variable {evts evts' : List Event} {i j : ℕ} {a : Addr}

theorem exists_renamed (h : List.Forall₂ (Event.RenamedByte τ φ) evts evts') {e : Event} (he : e ∈ evts) :
    ∃ e' ∈ evts', e.RenamedByte τ φ e' := by
  obtain ⟨i, hi⟩ := List.mem_iff_getElem?.mp he
  obtain ⟨e', hi', hR⟩ := forall₂_getElem? h hi
  exact ⟨e', List.mem_of_getElem? hi', hR⟩

theorem exists_original (h : List.Forall₂ (Event.RenamedByte τ φ) evts evts') {e' : Event} (he : e' ∈ evts') :
    ∃ e ∈ evts, e.RenamedByte τ φ e' := by
  obtain ⟨i, hi⟩ := List.mem_iff_getElem?.mp he
  obtain ⟨e, hi', hR⟩ := forall₂_getElem?' h hi
  exact ⟨e, List.mem_of_getElem? hi', hR⟩

/-- **The order** is the same. -/
theorem happensBefore_renamed (hτ : Function.Injective τ) (hφ : Function.Injective φ)
    (h : List.Forall₂ (Event.RenamedByte τ φ) evts evts') : HappensBefore evts' i j ↔ HappensBefore evts i j :=
  beforeIn_renamed (Node.rename_injective hτ hφ) (fun _ _ hR => hR.reads) (fun _ _ hR => hR.writes) h

/-- And so are the addresses that are shared. -/
theorem sharedIn_renamed (hτ : Function.Injective τ) (hφ : Function.Injective φ)
    (h : List.Forall₂ (Event.RenamedByte τ φ) evts evts') : SharedIn evts' (φ a) ↔ SharedIn evts a := by
  constructor
  · rintro ⟨⟨e', he', f', hf', hea, hfa, heq, heq', htid⟩, s', hs', hst, hseq⟩
    obtain ⟨e, he, hR⟩ := exists_original h he'
    obtain ⟨f, hf, hR'⟩ := exists_original h hf'
    obtain ⟨s, hs, hRs⟩ := exists_original h hs'
    rw [hR.isAccessEvent] at hea
    rw [hR'.isAccessEvent] at hfa
    rw [hR.access hea] at heq
    rw [hR'.access hfa] at heq'
    rw [hRs.opTy] at hst
    rw [hRs.access (Event.isAccessEvent_iff.mpr (Or.inr hst))] at hseq
    refine ⟨⟨e, he, f, hf, hea, hfa, hφ heq, hφ heq', fun htid' => htid ?_⟩, s, hs, hst, hφ hseq⟩
    rw [hR.tid, hR'.tid, htid']
  · rintro ⟨⟨e, he, f, hf, hea, hfa, rfl, heq', htid⟩, s, hs, hst, hseq⟩
    obtain ⟨e', he', hR⟩ := exists_renamed h he
    obtain ⟨f', hf', hR'⟩ := exists_renamed h hf
    obtain ⟨s', hs', hRs⟩ := exists_renamed h hs
    have hsa : s.isAccessEvent := Event.isAccessEvent_iff.mpr (Or.inr hst)
    refine ⟨⟨e', he', f', hf', hR.isAccessEvent.trans hea, hR'.isAccessEvent.trans hfa, hR.access hea, ?_, ?_⟩,
      s', hs', hRs.opTy.trans hst, ?_⟩
    · rw [hR'.access hfa, heq']
    · rw [hR.tid, hR'.tid]
      exact fun htid' => htid (hτ htid')
    · rw [hRs.access hsa, hseq]

/-- And those that are synchronised on. -/
theorem syncIn_renamed (hφ : Function.Injective φ) (h : List.Forall₂ (Event.RenamedByte τ φ) evts evts') :
    SyncIn evts' (φ a) ↔ SyncIn evts a := by
  constructor
  · rintro ⟨e', he', hs, heq⟩
    obtain ⟨e, he, hR⟩ := exists_original h he'
    rw [hR.isSyncOpEvent] at hs
    rw [hR.varAddr (Event.not_threadOp_of_sync hs)] at heq
    exact ⟨e, he, hs, hφ heq⟩
  · rintro ⟨e, he, hs, rfl⟩
    obtain ⟨e', he', hR⟩ := exists_renamed h he
    exact ⟨e', he', hR.isSyncOpEvent.trans hs, hR.varAddr (Event.not_threadOp_of_sync hs)⟩

/-- And so are the races. -/
theorem unorderedConflict_renamed (hτ : Function.Injective τ) (hφ : Function.Injective φ)
    (h : List.Forall₂ (Event.RenamedByte τ φ) evts evts') :
    UnorderedConflict evts' (φ a) i j ↔ UnorderedConflict evts a i j := by
  constructor
  · rintro ⟨hlt, ⟨e', f', he', hf', hea, hfa, heq, heq', hst⟩, hun⟩
    obtain ⟨e, he, hR⟩ := forall₂_getElem?' h he'
    obtain ⟨f, hf, hR'⟩ := forall₂_getElem?' h hf'
    rw [hR.isAccessEvent] at hea
    rw [hR'.isAccessEvent] at hfa
    rw [hR.access hea] at heq
    rw [hR'.access hfa] at heq'
    rw [hR.opTy, hR'.opTy] at hst
    exact ⟨hlt, ⟨e, f, he, hf, hea, hfa, hφ heq, hφ heq', hst⟩,
      fun hb => hun ((happensBefore_renamed hτ hφ h).mpr hb)⟩
  · rintro ⟨hlt, ⟨e, f, he, hf, hea, hfa, rfl, heq', hst⟩, hun⟩
    obtain ⟨e', he', hR⟩ := forall₂_getElem? h he
    obtain ⟨f', hf', hR'⟩ := forall₂_getElem? h hf
    refine ⟨hlt, ⟨e', f', he', hf', hR.isAccessEvent.trans hea, hR'.isAccessEvent.trans hfa, hR.access hea, ?_, ?_⟩,
      fun hb => hun ((happensBefore_renamed hτ hφ h).mp hb)⟩
    · rw [hR'.access hfa, heq']
    · rwa [hR.opTy, hR'.opTy]

theorem noStoreBetween_renamed (hφ : Function.Injective φ) (h : List.Forall₂ (Event.RenamedByte τ φ) evts evts') :
    NoStoreBetween evts' (φ a) i j ↔ NoStoreBetween evts a i j := by
  constructor
  · intro hno l f hil hlj hf hst heq
    obtain ⟨f', hf', hR⟩ := forall₂_getElem? h hf
    refine hno l f' hil hlj hf' (hR.opTy.trans hst) ?_
    rw [hR.access (Event.isAccessEvent_iff.mpr (Or.inr hst)), heq]
  · intro hno l f' hil hlj hf' hst heq
    obtain ⟨f, hf, hR⟩ := forall₂_getElem?' h hf'
    rw [hR.opTy] at hst
    rw [hR.access (Event.isAccessEvent_iff.mpr (Or.inr hst))] at heq
    exact hno l f hil hlj hf hst (hφ heq)

/-- Two graphs of renamed events get the same pairs. -/
theorem pairs_renamed (hτ : Function.Injective τ) (hφ : Function.Injective φ) {g g' : DepGraph} {ra ra' : RaceAnalyze}
    (h : List.Forall₂ (Event.RenamedByte τ φ) g.totEvents g'.totEvents) (hra : analyze g = .ok ra)
    (hra' : analyze g' = .ok ra') : ra'.getTotalRaceEventPair = ra.getTotalRaceEventPair := by
  ext ⟨i, j⟩
  rw [mem_pairs hra, mem_pairs hra']
  constructor
  · rintro ⟨b, hun, hno⟩
    -- the address is that of a renamed access
    obtain ⟨e', -, he', -, hea, -, rfl, -⟩ := id hun.accesses
    obtain ⟨e, he, hR⟩ := forall₂_getElem?' h he'
    rw [hR.access (hR.isAccessEvent ▸ hea)] at hun hno
    exact ⟨_, (unorderedConflict_renamed hτ hφ h).mp hun, (noStoreBetween_renamed hφ h).mp hno⟩
  · rintro ⟨a, hun, hno⟩
    exact ⟨φ a, (unorderedConflict_renamed hτ hφ h).mpr hun, (noStoreBetween_renamed hφ h).mpr hno⟩

end Bytes

/-! ### The file -/

section File

variable {file file' : List Event} {g : DepGraph} {ra : RaceAnalyze}

theorem expandTrace_renamed (h : List.Forall₂ (Event.Renamed τ φ) file file') :
    List.Forall₂ (Event.RenamedByte τ φ) (expandTrace file) (expandTrace file') :=
  List.rel_flatMap h fun _ _ hR => hR.expand

/-- A renamed file is loaded. -/
theorem loadTrace_renamed (h : List.Forall₂ (Event.Renamed τ φ) file file') (hload : loadTrace file = .ok g)
    (htid : ∀ e ∈ file, τ e.tid < UNDEFINED_TID) : ∃ g', loadTrace file' = .ok g' := by
  have htid' : ∀ e' ∈ file', e'.tid < UNDEFINED_TID := by
    intro e' he'
    obtain ⟨i, hi⟩ := List.mem_iff_getElem?.mp he'
    obtain ⟨e, he, hR⟩ := forall₂_getElem?' h hi
    rw [hR.tid]
    exact htid e (List.mem_of_getElem? he)
  apply (loadTrace_ok_iff htid').mpr
  intro i e' he'
  obtain ⟨e, he, hR⟩ := forall₂_getElem?' h he'
  obtain ⟨hts, hkind, hlen⟩ := loadable_of_loaded hload he
  refine ⟨hR.timestamp.trans hts, ?_, ?_⟩
  · unfold Event.isSyncOpEvent Event.isAccessEvent Event.isThreadOpEvent Event.isFuncCallEvent at hkind ⊢
    rwa [hR.opTy]
  · unfold Event.isAccessEvent at hlen ⊢
    rwa [hR.opTy, hR.varLen]

/-- The graph of a renamed file. -/
theorem totEvents_renamed (hτ : Function.Injective τ) (hφ : Function.Injective φ)
    (h : List.Forall₂ (Event.Renamed τ φ) file file') (hload : loadTrace file = .ok g) {g' : DepGraph}
    (hload' : loadTrace file' = .ok g') : List.Forall₂ (Event.RenamedByte τ φ) g.totEvents g'.totEvents := by
  obtain ⟨htot, hshared, -⟩ := loadTrace_eq_ok hload
  obtain ⟨htot', hshared', -⟩ := loadTrace_eq_ok hload'
  have hexp := expandTrace_renamed h
  rw [htot, htot']
  refine List.rel_filter (fun e e' hR => ?_) hexp
  show Loader.keeps g.sharedVars e = true ↔ Loader.keeps g'.sharedVars e' = true
  cases hacc : e.isAccessEvent with
  | false => rw [keeps_of_not_access hacc, keeps_of_not_access (hR.isAccessEvent.trans hacc)]
  | true =>
    rw [keeps_of_access hacc, keeps_of_access (hR.isAccessEvent.trans hacc), hshared, hshared', hR.access hacc,
      sharedIn_renamed hτ hφ hexp]

/-- **The analysis of a renamed trace** ends, and reports the pairs of places that it reports for the trace. -/
theorem analyze_renamed (hτ : Function.Injective τ) (hφ : Function.Injective φ) (hlow : ∀ t < MAX_THREAD, τ t < MAX_THREAD)
    (h : List.Forall₂ (Event.Renamed τ φ) file file') (htid : ∀ e ∈ file, e.tid < MAX_THREAD)
    (hload : loadTrace file = .ok g) (hra : analyze g = .ok ra) :
    ∃ g' ra', loadTrace file' = .ok g' ∧ analyze g' = .ok ra' ∧
      ra'.getTotalRaceEventPair = ra.getTotalRaceEventPair ∧
        List.Forall₂ (Event.RenamedByte τ φ) g.totEvents g'.totEvents := by
  obtain ⟨g', hload'⟩ := loadTrace_renamed h hload fun e he =>
    (hlow _ (htid e he)).trans (by decide)
  have htot := totEvents_renamed hτ hφ h hload hload'
  obtain ⟨-, -, hsync⟩ := loadTrace_eq_ok hload
  obtain ⟨-, -, hsync'⟩ := loadTrace_eq_ok hload'
  obtain ⟨ra', hra'⟩ : ∃ ra', analyze g' = .ok ra' := by
    apply analyzeLoop_ok_iff.mpr
    intro e' he'
    obtain ⟨e, he, hR⟩ := exists_original htot he'
    obtain ⟨hlt, hkind⟩ := analyzeLoop_ok_iff.mp ⟨ra, hra⟩ e he
    refine ⟨hR.tid ▸ hlow _ hlt, ?_⟩
    rw [hR.isThreadOpEvent, hR.isSyncOpEvent, hR.isAccessEvent, hR.varLen]
    rcases hkind with ⟨hop, hrem⟩ | hop | ⟨hacc, hlen, hno⟩
    · exact Or.inl ⟨hop, hR.remoteTid hop ▸ hlow _ hrem⟩
    · exact Or.inr (Or.inl hop)
    · refine Or.inr (Or.inr ⟨hacc, hlen, fun hvar => hno ?_⟩)
      have hvar := (hsync' _).mp (of_decide_eq_true hvar)
      rw [hR.access hacc, syncIn_renamed hφ (expandTrace_renamed h)] at hvar
      exact decide_eq_true ((hsync _).mpr hvar)
  exact ⟨g', ra', hload', hra', pairs_renamed hτ hφ htot hra hra', htot⟩

/-- `overlapFile` in another run: the threads have each other's numbers, and the bytes lie 4096 higher. -/
def overlapFile' : List Event :=
  [.makeArrayAccessEvent 1 0 2 .st 4104 8, .makeArrayAccessEvent 2 1 1 .ld 4108 2]

theorem analyze_renamed_overlapFile : ∃ g ra g' ra', loadTrace overlapFile = .ok g ∧ analyze g = .ok ra ∧
    loadTrace overlapFile' = .ok g' ∧ analyze g' = .ok ra' ∧ ra'.getTotalRaceEventPair = ra.getTotalRaceEventPair := by
  obtain ⟨g, ra, hg, hra⟩ := overlapFile_analyzed
  have hbytes : ∀ addr len, addr + len < 4096 → ∀ k < len, (addr + 4096 + k) % UInt64.size =
      (addr + k) % UInt64.size + 4096 := by
    intro addr len hsmall k hk
    have hsize : UInt64.size = 18446744073709551616 := rfl
    rw [Nat.mod_eq_of_lt (by omega), Nat.mod_eq_of_lt (by omega)]
    omega
  have hrenamed : List.Forall₂ (Event.Renamed (Equiv.swap 1 2) (· + 4096)) overlapFile overlapFile' := by
    exact .cons ⟨rfl, rfl, rfl, by decide, fun h => (by cases h), fun h => (by cases h), fun _ => hbytes 8 8 (by omega)⟩
      (.cons ⟨rfl, rfl, rfl, by decide, fun h => (by cases h), fun h => (by cases h), fun _ => hbytes 12 2 (by omega)⟩ .nil)
  obtain ⟨g', ra', hg', hra', hpairs, -⟩ := analyze_renamed (Equiv.injective _) (add_left_injective 4096) (by decide)
    hrenamed (by decide) hg hra
  exact ⟨g, ra, g', ra', hg, hra, hg', hra', hpairs⟩

end File

end Schnauzer
