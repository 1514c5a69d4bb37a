import Schnauzer.Common.Yaml
import Schnauzer.Lib.Sessions

/-!
# The settings

`common/Config`: the file of the settings is read when they are asked for first, by whichever thread asks, and all
threads get the one object that is made of it. `getConfig` looks at `instance_`, takes `mutex_`, and looks again. What
it has loaded it stores before it has it checked, since `checkConfig` calls `getConfig` too, and would wait for the
mutex that its own caller has.

A thread that asks is a session, and each look, store, `lock` and `unlock` is a statement. The file may be another one
each time it is read. `dump` is left out: what it would do is commented out.

## What is proved

* `calls_checkConfig` — the calls inside `checkConfig` take no mutex.
* `calls_getConfig` — what a call gives, whatever the other threads do.
* `getConfig_runs` — any number of calls, in any order of their statements.
-/

namespace Schnauzer

open Yaml Sessions

namespace Settings

/-- A `Config`: the file was read `number` times before it was made. -/
structure Object where
  number : ℕ
  yaml : Table

/-- What a thread does in `getConfig`. -/
inductive Query where
  /-- `instance_.load()`. -/
  | load
  /-- `instance_.store(tmp)`. -/
  | store (tmp : Object)
  /-- The constructor of the `lock_guard`. -/
  | lock
  /-- Its destructor. -/
  | unlock
  /-- `loadConfig()`. -/
  | loadConfig

/-- The variables of the class. -/
structure Shared where
  /-- `instance_`, which may be null. -/
  instance_ : Option Object
  /-- The thread that has `mutex_`. -/
  holder : Option ℕ
  /-- How many times the file was read. -/
  loads : ℕ

/-- Before the first call. -/
def init : Shared := ⟨none, none, 0⟩

/-- Where the settings come from. -/
structure Env where
  /-- The environment variable `LN_CONFIG`, if there is one. -/
  lnConfig : Option (List Char)
  /-- What the file is, when it was read so many times before. -/
  files : ℕ → List Char

variable (env : Env)

/-- `loadConfig`; `none` where it ends the program. -/
def loadConfig (n : ℕ) : Option Object :=
  match env.lnConfig with
  | none => none
  | some configPath =>
    -- `Aux::endswith`
    if "LN.yaml".toList.isSuffixOf configPath then
      match parse (env.files n) with
      | .ok (.yaml table) => some ⟨n, table⟩
      | _ => none
    else none

/-- One statement of thread `t`; nothing where it waits for the mutex. -/
def exec (t : ℕ) (s : Shared) : Query → Option (Shared × Option Object)
  | .load => some (s, s.instance_)
  | .store tmp => some ({ s with instance_ := some tmp }, none)
  | .lock => if s.holder = none then some ({ s with holder := some t }, none) else none
  | .unlock => some ({ s with holder := none }, none)
  | .loadConfig => some ({ s with loads := s.loads + 1 }, loadConfig env s.loads)

/-- A thread in one of the functions. -/
abbrev Caller (α : Type) := Session Query (Option Object) α

/-- `YamlValue::getYaml`; nothing where an `assert` fails. -/
def getYaml (table : Table) (k : List Char) : Option Table :=
  match Yaml.lookup k table with
  | some (.yaml sub) => some sub
  | _ => none

/-- `YamlValue::getBool`; nothing where an `assert` fails. -/
def getBool (table : Table) (k : List Char) : Option Bool :=
  match Yaml.lookup k table with
  | some (.bool v) => some v
  | _ => none

/-- A value that an `assert` asks for. -/
def asserted {α : Type} : Option α → Caller α
  | some a => return a
  | none => .stop

/-- `getLoggerConfig`, by a call of `getConfig`. -/
def getLoggerConfig (getConfig : Caller Object) : Caller Table := do
  let config ← getConfig
  asserted (getYaml config.yaml "LOGGER".toList)

/-- `getRuntimeConfig`. -/
def getRuntimeConfig (getConfig : Caller Object) : Caller Table := do
  let config ← getConfig
  asserted (getYaml config.yaml "RUNTIME".toList)

/-- `checkConfig`. -/
def checkConfig (getConfig : Caller Object) : Caller Bool := do
  let logger ← getLoggerConfig getConfig
  let enable ← asserted (getBool logger "ENABLE".toList)
  if enable then
    let runtime ← getRuntimeConfig getConfig
    let reuseTid ← asserted (getBool runtime "REUSE_TID".toList)
    if reuseTid = false then
      let runtime ← getRuntimeConfig getConfig
      let freeMem ← asserted (getBool runtime "FREE_MEM".toList)
      return freeMem = false
    else return false
  else return true

/-- `getConfig`, for calls inside each other of this depth. -/
def getConfig : ℕ → Caller Object
  | 0 => .stop
  | depth + 1 => do
    match ← ask .load with
    | some tmp => return tmp
    | none =>
      let _ ← ask .lock
      match ← ask .load with
      | some tmp =>
        let _ ← ask .unlock
        return tmp
      | none =>
        let tmp ← asserted (← ask .loadConfig)
        let _ ← ask (.store tmp)
        if ← checkConfig (getConfig depth) then
          let _ ← ask .unlock
          return tmp
        else .stop

/-- Threads that call `getConfig`. -/
def run (acts : List (Act Unit)) : Option (Sessions.Config Shared Query (Option Object) Object) :=
  Runs.exec (Sessions.step (exec env) fun _ => getConfig 2) ⟨init, []⟩ acts

/-! ### What the threads count on -/

/-- The settings that `checkConfig` accepts. -/
def Accepted (table : Table) : Prop :=
  ∃ logger enable, getYaml table "LOGGER".toList = some logger ∧ getBool logger "ENABLE".toList = some enable ∧
    (enable = true → ∃ runtime, getYaml table "RUNTIME".toList = some runtime ∧
      getBool runtime "REUSE_TID".toList = some false ∧ getBool runtime "FREE_MEM".toList = some false)

variable {env} {table : Table} {s s' : Shared} {t depth : ℕ}

/-- There is one object, if any, and what is not stored yet is in the hands of the thread that has the mutex. -/
structure Inv (table : Table) (s : Shared) : Prop where
  one : s.instance_ = none ∨ s.instance_ = some ⟨0, table⟩ ∧ s.loads = 1
  free : s.holder = none → s.instance_ = none → s.loads = 0
  loads : s.loads ≤ 1

/-- What the other threads do, for thread `t`: they neither give it the mutex nor take it from it, change nothing while
it has it, and never replace the object. -/
structure Rely (t : ℕ) (s s' : Shared) : Prop where
  holder : s.holder = some t ↔ s'.holder = some t
  held : s.holder = some t → s'.instance_ = s.instance_ ∧ s'.loads = s.loads
  stored : ∀ c, s.instance_ = some c → s'.instance_ = some c

/-- The thread has the mutex. -/
def Holds (s : Shared) (t : ℕ) : Prop := s.holder = some t

/-- A call has given the object, and the thread has no mutex. -/
def Given (table : Table) (t : ℕ) (a : Option Object) (s : Shared) : Prop := a = some ⟨0, table⟩ ∧ ¬ Holds s t

/-- The object is stored, and the thread has the mutex. -/
structure Stored (table : Table) (t : ℕ) (s : Shared) : Prop where
  holds : s.holder = some t
  stored : s.instance_ = some ⟨0, table⟩

theorem Rely.refl (t : ℕ) (s : Shared) : Rely t s s := ⟨Iff.rfl, fun _ => ⟨rfl, rfl⟩, fun _ h => h⟩

theorem Rely.trans {s₁ s₂ s₃ : Shared} (h₁ : Rely t s₁ s₂) (h₂ : Rely t s₂ s₃) : Rely t s₁ s₃ where
  holder := h₁.holder.trans h₂.holder
  held h := by
    obtain ⟨hinst, hloads⟩ := h₁.held h
    obtain ⟨hinst', hloads'⟩ := h₂.held (h₁.holder.mp h)
    exact ⟨hinst'.trans hinst, hloads'.trans hloads⟩
  stored c hc := h₂.stored c (h₁.stored c hc)

theorem stable : Stable (Inv table) Rely Holds (Given table) where
  refl := Rely.refl
  trans _ _ _ _ := Rely.trans
  holds _ _ _ h := h.holder
  post _ _ _ _ h _ hgiven := ⟨hgiven.1, h.holder.not.mp hgiven.2⟩

theorem Stored.mono (h : Stored table t s) (hrely : Rely t s s') : Stored table t s' :=
  ⟨hrely.holder.mp h.holds, hrely.stored _ h.stored⟩

/-- Only the thread that has the mutex changes the variables, and it changes no object that is stored. -/
theorem rely_of_holds (h : s.holder = some t) (hstored : ∀ c, s.instance_ = some c → s'.instance_ = some c)
    (hholder : s'.holder = some t ∨ s'.holder = none) : ∀ t', t' ≠ t → Rely t' s s' := by
  intro t' ht'
  have hne : ¬ s.holder = some t' := fun h' => ht' (Option.some.inj (h'.symm.trans h))
  refine ⟨⟨fun h' => absurd h' hne, fun h' => ?_⟩, fun h' => absurd h' hne, hstored⟩
  obtain hholder | hholder := hholder
  · exact absurd (Option.some.inj (h'.symm.trans hholder)) ht'
  · cases h'.symm.trans hholder

/-! ### The statements -/

/-- A thread in the middle of a call. -/
abbrev Calls (env : Env) (table : Table) {α : Type} (post : ℕ → Option α → Shared → Prop) (t : ℕ)
    (x : Caller α) (s : Shared) : Prop :=
  Sound (exec env) (Inv table) Rely Holds post t x s

variable {α : Type} {post : ℕ → Option α → Shared → Prop} {k : Option Object → Caller α}

/-- A look at `instance_`. -/
theorem calls_load (h : ∀ s', Rely t s s' → Inv table s' → Calls env table post t (k s'.instance_) s') :
    Calls env table post t (.exec .load k) s := by
  intro s₁ hrely hinv
  refine ⟨fun hexec => absurd hexec (Option.some_ne_none _), fun s₂ r hexec => ?_⟩
  cases hexec
  exact ⟨hinv, fun t' _ => Rely.refl t' _, h s₁ hrely hinv⟩

/-- The thread waits until the mutex is free. -/
theorem calls_lock (hs : ¬ Holds s t) (h : ∀ s', Inv table s' → s'.holder = some t →
    (s'.instance_ = none → s'.loads = 0) → Calls env table post t (k none) s') :
    Calls env table post t (.exec .lock k) s := by
  intro s₁ hrely hinv
  have hs₁ : ¬ Holds s₁ t := hrely.holder.not.mp hs
  cases hholder : s₁.holder with
  | none =>
    refine ⟨fun hexec => ?_, fun s₂ r hexec => ?_⟩
    · rw [exec, if_pos hholder] at hexec
      cases hexec
    · rw [exec, if_pos hholder] at hexec
      cases hexec
      have hinv₂ : Inv table { s₁ with holder := some t } :=
        ⟨hinv.one, fun hfree => absurd hfree (Option.some_ne_none _), hinv.loads⟩
      refine ⟨hinv₂, fun t' ht' => ?_, h _ hinv₂ rfl (hinv.free hholder)⟩
      refine ⟨⟨fun h' => ?_, fun h' => absurd (Option.some.inj h').symm ht'⟩, fun h' => ?_, fun _ hc => hc⟩
      · cases hholder.symm.trans h'
      · cases hholder.symm.trans h'
  | some t' =>
    have hne : s₁.holder ≠ none := by rw [hholder]; exact Option.some_ne_none _
    refine ⟨fun _ => ⟨hs₁, t', hholder⟩, fun s₂ r hexec => ?_⟩
    rw [exec, if_neg hne] at hexec
    cases hexec

/-- The mutex is given back, with the object stored. -/
theorem calls_unlock (hs : Stored table t s) (h : ∀ s', ¬ Holds s' t → Calls env table post t (k none) s') :
    Calls env table post t (.exec .unlock k) s := by
  intro s₁ hrely hinv
  have hs₁ := hs.mono hrely
  refine ⟨fun hexec => absurd hexec (Option.some_ne_none _), fun s₂ r hexec => ?_⟩
  cases hexec
  refine ⟨⟨hinv.one, fun _ hnone => ?_, hinv.loads⟩, ?_, h _ fun h' => by cases h'⟩
  · cases hnone.symm.trans hs₁.stored
  · exact rely_of_holds hs₁.holds (fun _ hc => hc) (Or.inr rfl)

/-- The file is read. -/
theorem calls_loadConfig (hload : loadConfig env 0 = some ⟨0, table⟩) (hs : s.holder = some t)
    (hnone : s.instance_ = none) (hloads : s.loads = 0) (h : ∀ s', s'.holder = some t → s'.instance_ = none →
      s'.loads = 1 → Calls env table post t (k (some ⟨0, table⟩)) s') :
    Calls env table post t (.exec .loadConfig k) s := by
  intro s₁ hrely hinv
  obtain ⟨hinst₁, hloads₁⟩ := hrely.held hs
  have hs₁ := hrely.holder.mp hs
  refine ⟨fun hexec => absurd hexec (Option.some_ne_none _), fun s₂ r hexec => ?_⟩
  have hload₁ : loadConfig env s₁.loads = some ⟨0, table⟩ := by rw [hloads₁, hloads, hload]
  rw [exec, hload₁] at hexec
  cases hexec
  have hone : s₁.loads + 1 = 1 := by rw [hloads₁, hloads]
  refine ⟨⟨Or.inl (hinst₁.trans hnone), fun hfree => ?_, hone.le⟩, ?_, h _ hs₁ (hinst₁.trans hnone) hone⟩
  · cases hs₁.symm.trans hfree
  · exact rely_of_holds hs₁ (fun _ hc => hc) (Or.inl hs₁)

/-- The object is stored. -/
theorem calls_store (hs : s.holder = some t) (hnone : s.instance_ = none) (hloads : s.loads = 1)
    (h : ∀ s', Stored table t s' → Inv table s' → Calls env table post t (k none) s') :
    Calls env table post t (.exec (.store ⟨0, table⟩) k) s := by
  intro s₁ hrely hinv
  obtain ⟨hinst₁, hloads₁⟩ := hrely.held hs
  have hs₁ := hrely.holder.mp hs
  refine ⟨fun hexec => absurd hexec (Option.some_ne_none _), fun s₂ r hexec => ?_⟩
  cases hexec
  have hinv₂ : Inv table { s₁ with instance_ := some ⟨0, table⟩ } :=
    ⟨Or.inr ⟨rfl, hloads₁.trans hloads⟩, fun hfree => absurd (hs₁.symm.trans hfree) (Option.some_ne_none _), hinv.loads⟩
  refine ⟨hinv₂, rely_of_holds hs₁ (fun c hc => ?_) (Or.inl hs₁), h _ ⟨hs₁, rfl⟩ hinv₂⟩
  cases hc.symm.trans (hinst₁.trans hnone)

/-! ### The calls -/

/-- What follows on something that the thread does while it has the mutex. -/
theorem calls_bind {β : Type} {x : Caller β} {f : β → Caller α} {v : β}
    (hx : Calls env table (fun t a s => a = some v ∧ Stored table t s) t x s) (hinv : Inv table s)
    (hf : ∀ s', Inv table s' → Stored table t s' → Calls env table post t (f v) s') :
    Calls env table post t (x.bind f) s := by
  refine Sound.bind hx hinv ?_ ?_
  · rintro _ s' hinv' ⟨heq, hs'⟩
    obtain rfl := Option.some.inj heq
    exact hf s' hinv' hs'
  · rintro _ ⟨⟨⟩, -⟩

theorem asserted_bind {β : Type} (b : β) (f : β → Caller α) : asserted (some b) >>= f = f b := rfl

/-- A call of the thread that has the mutex, after it has stored the object: it takes no mutex. -/
theorem calls_nested (hs : Stored table t s) : Calls env table
    (fun t a s => a = some ⟨0, table⟩ ∧ Stored table t s) t (getConfig (depth + 1)) s := by
  refine calls_load fun s₁ hrely _ => ?_
  have hs₁ := hs.mono hrely
  rw [hs₁.stored]
  exact ⟨rfl, hs₁⟩

/-- One of the settings, for the thread that has the mutex. -/
theorem calls_subconfig {name : List Char} {sub : Table} (hinv : Inv table s) (hs : Stored table t s)
    (hsub : getYaml table name = some sub) : Calls env table (fun t a s => a = some sub ∧ Stored table t s) t
      (do
        let config ← getConfig (depth + 1)
        asserted (getYaml config.yaml name)) s := by
  refine calls_bind (calls_nested hs) hinv fun s₁ _ hs₁ => ?_
  rw [hsub]
  exact ⟨rfl, hs₁⟩

/-- **`checkConfig`** of settings that it accepts: it waits for nothing. -/
theorem calls_checkConfig (haccepted : Accepted table) (hinv : Inv table s) (hs : Stored table t s) : Calls env table
    (fun t a s => a = some true ∧ Stored table t s) t (checkConfig (getConfig (depth + 1))) s := by
  obtain ⟨logger, enable, hlogger, henable, hruntime⟩ := haccepted
  refine calls_bind (calls_subconfig hinv hs hlogger) hinv fun s₁ hinv₁ hs₁ => ?_
  rw [henable]
  cases enable with
  | false => exact ⟨rfl, hs₁⟩
  | true =>
    obtain ⟨runtime, hruntime, hreuse, hfree⟩ := hruntime rfl
    rw [asserted_bind, if_pos rfl]
    refine calls_bind (calls_subconfig hinv₁ hs₁ hruntime) hinv₁ fun s₂ hinv₂ hs₂ => ?_
    rw [hreuse, asserted_bind, if_pos rfl]
    refine calls_bind (calls_subconfig hinv₂ hs₂ hruntime) hinv₂ fun s₃ _ hs₃ => ?_
    rw [hfree]
    exact ⟨rfl, hs₃⟩

/-- **`getConfig`** gives the one object, whatever the other threads do, and leaves the mutex free. -/
theorem calls_getConfig (hload : loadConfig env 0 = some ⟨0, table⟩) (haccepted : Accepted table)
    (hs : ¬ Holds s t) : Calls env table (Given table) t (getConfig (depth + 2)) s := by
  refine calls_load fun s₁ hrely₁ hinv₁ => ?_
  have hs₁ : ¬ Holds s₁ t := hrely₁.holder.not.mp hs
  obtain hnone | ⟨hsome, -⟩ := hinv₁.one
  · rw [hnone]
    refine calls_lock hs₁ fun s₂ hinv₂ hs₂ hloads₂ => calls_load fun s₃ hrely₃ hinv₃ => ?_
    have hs₃ := hrely₃.holder.mp hs₂
    obtain ⟨hinst₃, hloads₃⟩ := hrely₃.held hs₂
    obtain hnone | ⟨hsome, -⟩ := hinv₃.one
    · -- no thread has loaded the file, and none does before the mutex is given back
      rw [hnone]
      refine calls_loadConfig hload hs₃ hnone (hloads₃.trans (hloads₂ (hinst₃.symm.trans hnone))) ?_
      intro s₄ hs₄ hnone₄ hloads₄
      refine calls_store hs₄ hnone₄ hloads₄ fun s₅ hs₅ hinv₅ => ?_
      rw [Session.bind]
      refine calls_bind (calls_checkConfig haccepted hinv₅ hs₅) hinv₅ fun s₆ _ hs₆ => ?_
      exact calls_unlock hs₆ fun s₇ hs₇ => ⟨rfl, hs₇⟩
    · rw [hsome]
      exact calls_unlock ⟨hs₃, hsome⟩ fun s₄ hs₄ => ⟨rfl, hs₄⟩
  · rw [hsome]
    exact ⟨rfl, hs₁⟩

/-! ### How long a call is -/

/-- A number of statements that a call has at most. -/
def length : ℕ → ℕ
  | 0 => 0
  | depth + 1 => 5 + (3 * length depth + 1)

theorem within_asserted {n : ℕ} (a : Option α) : Within n (asserted a) := by
  cases a <;> cases n <;> trivial

theorem within_checkConfig {n : ℕ} {x : Caller Object} (hx : Within n x) : Within (3 * n) (checkConfig x) := by
  have hsub : ∀ name, Within n (do
      let config ← x
      asserted (getYaml config.yaml name)) := fun name => hx.bind fun config => within_asserted (n := 0) _
  have hlast : ∀ o : Option Bool, Within 0 (do
      let freeMem ← asserted o
      return decide (freeMem = false)) := fun o => Within.bind (n := 0) (within_asserted o) fun _ => trivial
  rw [show 3 * n = n + (0 + (n + (0 + (n + 0)))) by omega]
  refine (hsub _).bind fun logger => (within_asserted _).bind fun enable => ?_
  cases enable with
  | false => cases n + (0 + (n + 0)) <;> trivial
  | true =>
    refine (hsub _).bind fun runtime => (within_asserted _).bind fun reuseTid => ?_
    cases reuseTid with
    | false => exact (hsub _).bind fun runtime => hlast _
    | true => cases n + 0 <;> trivial

theorem within_getConfig (depth : ℕ) : Within (length depth) (getConfig depth) := by
  induction depth with
  | zero => trivial
  | succ depth ih =>
    rw [length, Nat.add_comm]
    rintro (_ | tmp)
    · rintro - (_ | tmp)
      · rintro (_ | tmp)
        · trivial
        · rintro -
          refine (within_checkConfig ih).bind fun found => ?_
          cases found with
          | true => exact fun _ => trivial
          | false => trivial
      · exact fun _ => trivial
    · trivial

/-! ### Runs -/

/-- What a run has come to. -/
structure Served (env : Env) (table : Table) (acts : List (Act Unit))
    (c : Sessions.Config Shared Query (Option Object) Object) : Prop where
  /-- The file is read once. -/
  once : c.shared.loads ≤ 1
  /-- Every call that has returned gave the one object. -/
  given : ∀ (t : ℕ) (a : Object), c.sessions[t]? = some (.done a) → a = ⟨0, table⟩
  /-- No `assert` has failed, and the calls were not too deep inside each other. -/
  sound : ∀ t : ℕ, c.sessions[t]? ≠ some .stop
  /-- If a call has not returned, one of the threads goes on. -/
  live : ∀ (t : ℕ) q k, c.sessions[t]? = some (.exec q k) → ∃ t' c', Sessions.next (exec env) c t' = some c'
  /-- The calls return. -/
  short : countNext acts ≤ 24 * countStart acts

/-- **Any number of calls of `getConfig`**, in any order of their statements: the file is read once, all calls give the
object that was made of it, and no two threads wait for each other, if the settings are as `checkConfig` asks for. -/
theorem getConfig_runs {acts : List (Act Unit)} {c : Sessions.Config Shared Query (Option Object) Object}
    (hload : loadConfig env 0 = some ⟨0, table⟩) (haccepted : Accepted table) (h : run env acts = some c) :
    Served env table acts c := by
  have hinit : Inv table init := ⟨Or.inl rfl, fun _ _ => rfl, Nat.zero_le 1⟩
  have hall : AllSound (exec env) (Inv table) Rely Holds (Given table) c := by
    refine sound_of_exec stable ⟨hinit, ?_, ?_⟩ (fun _ t s _ hs => calls_getConfig hload haccepted hs) h
    · rintro t x ⟨⟩
    · rintro t ⟨⟩
  refine ⟨hall.shared.loads, fun t a ht => ?_, fun t ht => ?_, fun t q k ht => ?_, ?_⟩
  · exact Option.some.inj (hall.sound t _ ht).1
  · cases (hall.sound t _ ht).1
  · exact hall.exists_next stable (fun _ _ _ hgiven => hgiven.2) ht
  · exact countNext_le_of_exec (fun _ => within_getConfig 2) h

/-- The settings of a run that is logged. -/
def loggedEnv : Env where
  lnConfig := some "LN.yaml".toList
  files _ := "LOGGER:\n  ENABLE: true\nRUNTIME:\n  REUSE_TID: false\n  FREE_MEM: false\n".toList

/-- Its table. -/
def loggedTable : Table :=
  [("LOGGER".toList, .yaml [("ENABLE".toList, .bool true)]),
    ("RUNTIME".toList, .yaml [("FREE_MEM".toList, .bool false), ("REUSE_TID".toList, .bool false)])]

theorem loadConfig_loggedEnv : loadConfig loggedEnv 0 = some ⟨0, loggedTable⟩ := rfl

theorem accepted_loggedTable : Accepted loggedTable :=
  ⟨_, true, rfl, rfl, fun _ => ⟨_, rfl, rfl, rfl⟩⟩

/-- Two threads ask; the second has looked before the first has stored, and waits. -/
def twoCalls : List (Act Unit) :=
  [.start (), .start (), .next 0, .next 1] ++ List.replicate 8 (.next 0) ++ List.replicate 3 (.next 1)

theorem getConfig_runs_twoCalls : ∃ c, run loggedEnv twoCalls = some c ∧ Served loggedEnv loggedTable twoCalls c :=
  ⟨_, rfl, getConfig_runs loadConfig_loggedEnv accepted_loggedTable rfl⟩

end Settings

end Schnauzer
