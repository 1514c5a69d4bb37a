import Schnauzer.Lib.Runs
import Schnauzer.Scs.ScScheduler
import Schnauzer.Sched.ScsImpl

/-!
# Inside the functions of `ScsImpl`

The threads and the supervisor between the accesses they make: to the mutex, the money, the
epoch and the condition variable. A thread that waits on the condition variable has given up
the mutex; a broadcast, or nothing at all, wakes it up, and it goes on once it has the mutex
again. A thread calls the four functions in any order.

Thread `t` is whatever thread has the id `t` at the time: between two calls nothing of
a thread is left here but its money.

## What is proved

* `step_cases` — what a step does.
-/

namespace Schnauzer

open Runs

/-- Where a thread is; `c` is the function it has called, `lastEpoch` what it remembers in
`blockCurrThread`. -/
inductive Place where
  /-- In none of the functions. -/
  | out
  /-- In front of `pthread_mutex_lock`. -/
  | lock (c : ScsCall)
  /-- In front of the test of its money. -/
  | check (c : ScsCall)
  /-- In front of the load of the epoch in `blockCurrThread`. -/
  | block (c : ScsCall)
  /-- In front of `pthread_cond_wait`. -/
  | wait (c : ScsCall) (lastEpoch : ℕ)
  /-- In `pthread_cond_wait`, asleep. -/
  | asleep (c : ScsCall) (lastEpoch : ℕ)
  /-- In `pthread_cond_wait`, awake and without the mutex. -/
  | woken (c : ScsCall) (lastEpoch : ℕ)
  /-- In front of the test of the loop. -/
  | test (c : ScsCall) (lastEpoch : ℕ)
  /-- In front of `decCurrThreadMoney`. -/
  | dec (c : ScsCall)
  /-- In front of `currThreadEnterSync`. -/
  | enter
  /-- In front of `currThreadLeaveSync`. -/
  | leave
  /-- In front of `pthread_mutex_unlock`. -/
  | unlock
  deriving DecidableEq

/-- Where the supervisor is. -/
inductive Sup where
  /-- Not in `supervise`. -/
  | out
  /-- In front of `pthread_mutex_lock`. -/
  | lock
  /-- In `resetThreadMoney`, at thread `i`. -/
  | reset (i : ℕ)
  /-- In front of the increment of the epoch. -/
  | newEpoch
  /-- In front of `pthread_cond_broadcast`. -/
  | broadcast
  /-- Past `startNewEpoch`. -/
  | count
  /-- In `randomInitThreadMoney`, at thread `i`. -/
  | draw (i : ℕ)
  /-- In front of `pthread_mutex_unlock`. -/
  | unlock
  deriving DecidableEq

/-- Who has the mutex. -/
inductive Party where
  | thread (t : ℕ)
  | supervisor
  deriving DecidableEq

/-- The scheduler and the places of its callers. -/
structure Monitor where
  /-- The money and the epochs. -/
  sched : Sched
  /-- `__mutex`. -/
  mutex : Option Party
  /-- The threads. -/
  place : ℕ → Place
  /-- The supervisor. -/
  sup : Sup

namespace Monitor

/-- A step. -/
inductive Action where
  /-- A thread calls a function. -/
  | call (t : ℕ) (c : ScsCall)
  /-- A thread goes on. -/
  | run (t : ℕ)
  /-- A thread wakes up without a broadcast. -/
  | wake (t : ℕ)
  /-- The supervisor goes on, from the place `p`. -/
  | supervise (p : Sup)
  /-- The supervisor draws an initial amount. -/
  | draw (x : ℕ)
  deriving DecidableEq

/-- After `schedInit`. -/
def init (initMoney : ℕ → ℕ) : Monitor := ⟨.init initMoney, none, fun _ => .out, .out⟩

/-- A thread goes to another place. -/
def goto (s : Monitor) (t : ℕ) (p : Place) : Monitor := { s with place := Function.update s.place t p }

/-- A party takes the mutex. -/
def acquire (s : Monitor) (p : Party) (s' : Monitor) : Option Monitor :=
  if s.mutex = none then some { s' with mutex := some p } else none

/-- The first place past the lock. -/
def entry : ScsCall → Place
  | .afterSyncOperation => .leave
  | c => .check c

/-- The place past `decCurrThreadMoney`. -/
def paid : ScsCall → Place
  | .beforeSyncOperation => .enter
  | _ => .unlock

/-- A thread calls one of the functions; `getCurrTid` stops those with an id out of range. -/
def call (cfg : SchedConfig) (s : Monitor) (t : ℕ) (c : ScsCall) : Option Monitor :=
  match s.place t with
  | .out =>
    if t < MAX_NR_THREAD then
      if cfg.syncOnly && (c == .beforeFuncCall || c == .afterFuncCall) then some s
      else some (s.goto t (.lock c))
    else none
  | _ => none

/-- The next step of a thread. -/
def run (s : Monitor) (t : ℕ) : Option Monitor :=
  match s.place t with
  | .out => none
  | .lock c => acquire s (.thread t) (s.goto t (entry c))
  | .check c => some (s.goto t (if s.sched.money t = 0 then .block c else .dec c))
  | .block c =>
    if s.sched.money t = 0 then some (s.goto t (.wait c s.sched.epoch)) else none
  | .wait c e => some { s.goto t (.asleep c e) with mutex := none }
  | .asleep _ _ => none
  | .woken c e => acquire s (.thread t) (s.goto t (.test c e))
  | .test c e => some (s.goto t (if e = s.sched.epoch then .wait c e else .dec c))
  | .dec c =>
    some { s.goto t (paid c) with sched := s.sched.setMoney t (MoneyMngr.decCurrThreadMoney (s.sched.money t)) }
  | .enter =>
    some { s.goto t .unlock with sched := s.sched.setMoney t (MoneyMngr.currThreadEnterSync (s.sched.money t)) }
  | .leave =>
    some { s.goto t .unlock with sched := s.sched.setMoney t (MoneyMngr.currThreadLeaveSync (s.sched.money t)) }
  | .unlock => some { s.goto t .out with mutex := none }

/-- What a broadcast does to a thread. -/
def wakeUp : Place → Place
  | .asleep c e => .woken c e
  | p => p

/-- The next step of the supervisor, from `p`; a draw is no such step. -/
def supervise (cfg : SchedConfig) (s : Monitor) : Sup → Option Monitor
  | .out => some { s with sup := .lock }
  | .lock => acquire s .supervisor { s with sup := .reset 0 }
  | .reset i =>
    if i < MAX_NR_THREAD then
      some { s with sched := s.sched.setMoney i (s.sched.initMoney i), sup := .reset (i + 1) }
    else some { s with sup := .newEpoch }
  | .newEpoch => some { s with sched := { s.sched with epoch := s.sched.epoch + 1 }, sup := .broadcast }
  | .broadcast => some { s with place := fun t => wakeUp (s.place t), sup := .count }
  | .count =>
    let sched := { s.sched with nrEpoch := s.sched.nrEpoch + 1 }
    if cfg.randomMoney && sched.nrEpoch % Sched.resetInterval cfg == 0 then
      some { s with sched, sup := .draw 0 }
    else some { s with sched, sup := .unlock }
  | .draw i => if i < MAX_NR_THREAD then none else some { s with sup := .unlock }
  | .unlock => some { s with mutex := none, sup := .out }

/-- `randMoney` for the thread at which `randomInitThreadMoney` is. -/
def draw (cfg : SchedConfig) (s : Monitor) (x : ℕ) : Option Monitor :=
  match s.sup with
  | .draw i =>
    if i < MAX_NR_THREAD ∧ MoneyMngr.IsRandMoney cfg x then
      some { s with
        sched := { s.sched with initMoney := Function.update s.sched.initMoney i x }, sup := .draw (i + 1) }
    else none
  | _ => none

/-- A thread wakes up without a broadcast. -/
def wake (s : Monitor) (t : ℕ) : Option Monitor :=
  match s.place t with
  | .asleep c e => some (s.goto t (.woken c e))
  | _ => none

/-- A step. -/
def step (cfg : SchedConfig) (s : Monitor) : Action → Option Monitor
  | .call t c => call cfg s t c
  | .run t => run s t
  | .wake t => wake s t
  | .supervise p => if s.sup = p then supervise cfg s p else none
  | .draw x => draw cfg s x

/-! ### What a step does -/

/-- The steps of a thread that change nothing but its place. -/
inductive Moves (s : Monitor) (t : ℕ) : Action → Place → Place → Prop where
  /-- It calls a function. -/
  | call {c : ScsCall} (ht : t < MAX_NR_THREAD) : Moves s t (.call t c) .out (.lock c)
  /-- It finds that it has no money. -/
  | poor {c : ScsCall} (hm : s.sched.money t = 0) : Moves s t (.run t) (.check c) (.block c)
  /-- It finds that it has money. -/
  | rich {c : ScsCall} (hm : s.sched.money t ≠ 0) : Moves s t (.run t) (.check c) (.dec c)
  /-- It remembers the epoch. -/
  | block {c : ScsCall} (hm : s.sched.money t = 0) : Moves s t (.run t) (.block c) (.wait c s.sched.epoch)
  /-- It wakes up without a broadcast. -/
  | wake {c : ScsCall} {e : ℕ} : Moves s t (.wake t) (.asleep c e) (.woken c e)
  /-- It has to wait again. -/
  | again {c : ScsCall} : Moves s t (.run t) (.test c s.sched.epoch) (.wait c s.sched.epoch)
  /-- It sees another epoch. -/
  | pass {c : ScsCall} {e : ℕ} (he : e ≠ s.sched.epoch) : Moves s t (.run t) (.test c e) (.dec c)

/-- The steps of a thread that take the mutex. -/
inductive Takes : Place → Place → Prop where
  | lock {c : ScsCall} : Takes (.lock c) (entry c)
  | woken {c : ScsCall} {e : ℕ} : Takes (.woken c e) (.test c e)

/-- The steps of a thread that give the mutex back. -/
inductive Gives : Place → Place → Prop where
  | wait {c : ScsCall} {e : ℕ} : Gives (.wait c e) (.asleep c e)
  | unlock : Gives .unlock .out

/-- The steps of a thread that change its money, from `m`. -/
inductive Pays (m : ℕ) : Place → Place → ℕ → Prop where
  | dec {c : ScsCall} : Pays m (.dec c) (paid c) (MoneyMngr.decCurrThreadMoney m)
  | enter : Pays m .enter .unlock (MoneyMngr.currThreadEnterSync m)
  | leave : Pays m .leave .unlock (MoneyMngr.currThreadLeaveSync m)

/-- The steps, one by one. -/
inductive Stepped (cfg : SchedConfig) (s : Monitor) : Action → Monitor → Prop where
  /-- A call that returns at once. -/
  | skip {t : ℕ} {c : ScsCall} : Stepped cfg s (.call t c) s
  /-- A thread changes its place. -/
  | move {a : Action} {t : ℕ} {p p' : Place} (hp : s.place t = p) (h : Moves s t a p p') :
      Stepped cfg s a (s.goto t p')
  /-- A thread takes the mutex. -/
  | take {t : ℕ} {p p' : Place} (hp : s.place t = p) (h : Takes p p') (hm : s.mutex = none) :
      Stepped cfg s (.run t) { s.goto t p' with mutex := some (.thread t) }
  /-- A thread gives the mutex back. -/
  | give {t : ℕ} {p p' : Place} (hp : s.place t = p) (h : Gives p p') :
      Stepped cfg s (.run t) { s.goto t p' with mutex := none }
  /-- A thread changes its money. -/
  | pay {t m : ℕ} {p p' : Place} (hp : s.place t = p) (h : Pays (s.sched.money t) p p' m) :
      Stepped cfg s (.run t) { s.goto t p' with sched := s.sched.setMoney t m }
  /-- The supervisor begins. -/
  | begin (hp : s.sup = .out) : Stepped cfg s (.supervise .out) { s with sup := .lock }
  /-- The supervisor takes the mutex. -/
  | lock (hp : s.sup = .lock) (hm : s.mutex = none) :
      Stepped cfg s (.supervise .lock) { s with sup := .reset 0, mutex := some .supervisor }
  /-- The supervisor gives a thread its initial amount. -/
  | reset {i : ℕ} (hp : s.sup = .reset i) (hi : i < MAX_NR_THREAD) :
      Stepped cfg s (.supervise (.reset i))
        { s with sched := s.sched.setMoney i (s.sched.initMoney i), sup := .reset (i + 1) }
  /-- All threads have theirs. -/
  | resetDone {i : ℕ} (hp : s.sup = .reset i) (hi : MAX_NR_THREAD ≤ i) :
      Stepped cfg s (.supervise (.reset i)) { s with sup := .newEpoch }
  /-- The supervisor increments the epoch. -/
  | newEpoch (hp : s.sup = .newEpoch) :
      Stepped cfg s (.supervise .newEpoch)
        { s with sched := { s.sched with epoch := s.sched.epoch + 1 }, sup := .broadcast }
  /-- The supervisor wakes up the threads. -/
  | broadcast (hp : s.sup = .broadcast) :
      Stepped cfg s (.supervise .broadcast) { s with place := fun t => wakeUp (s.place t), sup := .count }
  /-- It is time for other initial amounts. -/
  | redraw (hp : s.sup = .count) (hr : cfg.randomMoney)
      (hn : (s.sched.nrEpoch + 1) % Sched.resetInterval cfg = 0) :
      Stepped cfg s (.supervise .count)
        { s with sched := { s.sched with nrEpoch := s.sched.nrEpoch + 1 }, sup := .draw 0 }
  /-- It is not. -/
  | keep (hp : s.sup = .count)
      (hn : ¬ (cfg.randomMoney ∧ (s.sched.nrEpoch + 1) % Sched.resetInterval cfg = 0)) :
      Stepped cfg s (.supervise .count)
        { s with sched := { s.sched with nrEpoch := s.sched.nrEpoch + 1 }, sup := .unlock }
  /-- The supervisor draws an initial amount. -/
  | draw {i x : ℕ} (hp : s.sup = .draw i) (hi : i < MAX_NR_THREAD) (hx : MoneyMngr.IsRandMoney cfg x) :
      Stepped cfg s (.draw x)
        { s with
          sched := { s.sched with initMoney := Function.update s.sched.initMoney i x }, sup := .draw (i + 1) }
  /-- All are drawn. -/
  | drawDone {i : ℕ} (hp : s.sup = .draw i) (hi : MAX_NR_THREAD ≤ i) :
      Stepped cfg s (.supervise (.draw i)) { s with sup := .unlock }
  /-- The supervisor gives the mutex back. -/
  | unlock (hp : s.sup = .unlock) : Stepped cfg s (.supervise .unlock) { s with mutex := none, sup := .out }

variable {cfg : SchedConfig} {s s' : Monitor} {a : Action}

theorem acquire_eq_some {p : Party} {s₁ : Monitor} (h : acquire s p s₁ = some s') :
    s.mutex = none ∧ s' = { s₁ with mutex := some p } := by
  unfold acquire at h
  split_ifs at h with hm
  exact ⟨hm, (Option.some.inj h).symm⟩

theorem call_cases {t : ℕ} {c : ScsCall} (h : call cfg s t c = some s') : Stepped cfg s (.call t c) s' := by
  unfold call at h
  split at h
  next hp =>
    split_ifs at h with ht
    · obtain rfl := Option.some.inj h
      exact .skip
    · obtain rfl := Option.some.inj h
      exact .move hp (.call ht)
  next => cases h

theorem run_cases {t : ℕ} (h : run s t = some s') : Stepped cfg s (.run t) s' := by
  unfold run at h
  cases hp : s.place t with
  | out => simp [hp] at h
  | asleep c e => simp [hp] at h
  | lock c =>
    simp only [hp] at h
    obtain ⟨hm, rfl⟩ := acquire_eq_some h
    exact .take hp .lock hm
  | woken c e =>
    simp only [hp] at h
    obtain ⟨hm, rfl⟩ := acquire_eq_some h
    exact .take hp .woken hm
  | check c =>
    simp only [hp, Option.some.injEq] at h
    subst h
    split_ifs with hm
    · exact .move hp (.poor hm)
    · exact .move hp (.rich hm)
  | block c =>
    simp only [hp] at h
    split_ifs at h with hm
    obtain rfl := Option.some.inj h
    exact .move hp (.block hm)
  | test c e =>
    simp only [hp, Option.some.injEq] at h
    subst h
    split_ifs with he
    · subst he
      exact .move hp .again
    · exact .move hp (.pass he)
  | wait c e =>
    simp only [hp, Option.some.injEq] at h
    subst h
    exact .give hp .wait
  | unlock =>
    simp only [hp, Option.some.injEq] at h
    subst h
    exact .give hp .unlock
  | dec c =>
    simp only [hp, Option.some.injEq] at h
    subst h
    exact .pay hp .dec
  | enter =>
    simp only [hp, Option.some.injEq] at h
    subst h
    exact .pay hp .enter
  | leave =>
    simp only [hp, Option.some.injEq] at h
    subst h
    exact .pay hp .leave

theorem supervise_cases {p : Sup} (hp : s.sup = p) (h : supervise cfg s p = some s') :
    Stepped cfg s (.supervise p) s' := by
  cases p with
  | out =>
    obtain rfl := Option.some.inj h
    exact .begin hp
  | lock =>
    obtain ⟨hm, rfl⟩ := acquire_eq_some h
    exact .lock hp hm
  | reset i =>
    simp only [supervise] at h
    split_ifs at h with hi
    · obtain rfl := Option.some.inj h
      exact .reset hp hi
    · obtain rfl := Option.some.inj h
      exact .resetDone hp (Nat.le_of_not_lt hi)
  | newEpoch =>
    obtain rfl := Option.some.inj h
    exact .newEpoch hp
  | broadcast =>
    obtain rfl := Option.some.inj h
    exact .broadcast hp
  | count =>
    simp only [supervise, Bool.and_eq_true, beq_iff_eq] at h
    split_ifs at h with hr
    · obtain rfl := Option.some.inj h
      exact .redraw hp hr.1 hr.2
    · obtain rfl := Option.some.inj h
      exact .keep hp hr
  | draw i =>
    simp only [supervise] at h
    split_ifs at h with hi
    obtain rfl := Option.some.inj h
    exact .drawDone hp (Nat.le_of_not_lt hi)
  | unlock =>
    obtain rfl := Option.some.inj h
    exact .unlock hp

/-- **What a step does.** -/
theorem step_cases (h : step cfg s a = some s') : Stepped cfg s a s' := by
  cases a with
  | call t c => exact call_cases h
  | run t => exact run_cases h
  | wake t =>
    simp only [step, wake] at h
    split at h
    next c e hp =>
      obtain rfl := Option.some.inj h
      exact .move hp .wake
    next => cases h
  | supervise p =>
    simp only [step] at h
    split_ifs at h with hp
    exact supervise_cases hp h
  | draw x =>
    simp only [step, draw] at h
    split at h
    next i hp =>
      split_ifs at h with hi
      obtain rfl := Option.some.inj h
      exact .draw hp hi.1 hi.2
    next => cases h

end Monitor

end Schnauzer
