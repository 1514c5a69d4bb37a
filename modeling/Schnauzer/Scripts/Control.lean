import Mathlib.Algebra.Ring.Int.Defs
import Mathlib.Data.List.Nodup
import Mathlib.Data.List.ProdSigma
import Mathlib.Order.MinMax
import Mathlib.Tactic.SplitIfs

/-!
# Systematic sampling

`scripts/control.py`: `SysCtrl` runs the program once for every two of the threads that are
controlled and every two amounts that `generateMoney` yields, with a new list `INIT_MONEY` in
the configuration each time. A step is `none` where an assignment raises `IndexError`, which
ends the script.

`random.randint(2, 33)` is a number that it can return, the `k`-th one being `rng k`.

## What is proved

* `samplesInRange_iff` — the lists are as they should be exactly when every thread that is combined
  has an entry in the list of the configuration.
-/

namespace Schnauzer

namespace Scripts

namespace SysCtrl

/-- What `random.randint(2, 33)` returns. -/
structure Amount where
  /-- The number. -/
  val : ℤ
  /-- It is in the range, ends included. -/
  inRange : 2 ≤ val ∧ val ≤ 33

/-- `cfg['SCS']['INIT_MONEY']`, and how many numbers were drawn. -/
structure Cfg where
  /-- `INIT_MONEY`. -/
  initMoney : List ℤ
  /-- The numbers drawn so far. -/
  drawn : ℕ

/-- `itertools.combinations(l, 2)`. -/
def combinations {α : Type} : List α → List (α × α)
  | [] => []
  | x :: xs => xs.map (x, ·) ++ combinations xs

/-- `generateMoney`. -/
def generateMoney : List (ℤ × ℤ) :=
  [1, 8].flatMap fun n => (List.range' 1 7).map fun m => (2 ^ n, 2 ^ m)

/-- `l[t] = m`. -/
def setItem (l : List ℤ) (t : ℕ) (m : ℤ) : Option (List ℤ) :=
  if t < l.length then some (l.set t m) else none

/-- A list that was built. -/
structure Round where
  /-- The two threads. -/
  threads : ℕ × ℕ
  /-- The two amounts. -/
  moneys : ℤ × ℤ
  /-- `INIT_MONEY` before. -/
  before : List ℤ
  /-- `INIT_MONEY` with which the program is run. -/
  built : List ℤ

variable (rng : ℕ → Amount)

/-- The loop of `sysMoney`. -/
def rounds (length : ℕ) (threads : ℕ × ℕ) : List (ℤ × ℤ) → Cfg → Option (List Round × Cfg)
  | [], cfg => some ([], cfg)
  | moneys :: rest, cfg => do
    let initMoney := (List.range length).map fun i => (rng (cfg.drawn + i)).val
    -- for t, m in zip(threads, moneys)
    let initMoney ← setItem initMoney threads.1 moneys.1
    let initMoney ← setItem initMoney threads.2 moneys.2
    let (rs, cfg') ← rounds length threads rest ⟨initMoney, cfg.drawn + length⟩
    return (⟨threads, moneys, cfg.initMoney, initMoney⟩ :: rs, cfg')

/-- `sysMoney`. -/
def sysMoney (cfg : Cfg) (threads : ℕ × ℕ) : Option (List Round × Cfg) :=
  let length := max cfg.initMoney.length (max threads.1 threads.2)
  rounds rng length threads generateMoney cfg

/-- The loop of `sysThread`. -/
def sysThreads : List (ℕ × ℕ) → Cfg → Option (List Round × Cfg)
  | [], cfg => some ([], cfg)
  | threads :: rest, cfg => do
    let (rs, cfg) ← sysMoney rng cfg threads
    let (rs', cfg) ← sysThreads rest cfg
    return (rs ++ rs', cfg)

/-- `sysThread`. -/
def sysThread (ctrlThread : List ℕ) (cfg : Cfg) : Option (List Round × Cfg) :=
  sysThreads rng (combinations ctrlThread) cfg

/-- A list that is as it should be. -/
structure Round.InRange (r : Round) : Prop where
  /-- It is not shorter than before. -/
  length : r.before.length ≤ r.built.length
  /-- The first thread has its amount. -/
  first : r.built[r.threads.1]? = some r.moneys.1
  /-- The second thread has its amount. -/
  second : r.built[r.threads.2]? = some r.moneys.2
  /-- The others have an amount in the range. -/
  other : ∀ i m, i ≠ r.threads.1 → i ≠ r.threads.2 → r.built[i]? = some m → 2 ≤ m ∧ m ≤ 33

/-- The script builds a list for every two threads and every two amounts, and each is as it should be. -/
def SamplesInRange (ctrlThread : List ℕ) (initMoney : List ℤ) : Prop :=
  ∃ rs cfg, sysThread rng ctrlThread ⟨initMoney, 0⟩ = some (rs, cfg) ∧
    (rs.map fun r => (r.threads, r.moneys)) = (combinations ctrlThread).product generateMoney ∧
    ∀ r ∈ rs, r.InRange

variable {rng}

/-! ### One list -/

theorem setItem_eq_some {l l' : List ℤ} {t : ℕ} {m : ℤ} :
    setItem l t m = some l' ↔ t < l.length ∧ l.set t m = l' := by
  unfold setItem
  split_ifs with h <;> simp [h]

/-- The list for two threads and two amounts. -/
theorem inRange_set {l before : List ℤ} {threads : ℕ × ℕ} {moneys : ℤ × ℤ}
    (hl : ∀ m ∈ l, 2 ≤ m ∧ m ≤ 33) (hlen : before.length ≤ l.length) (h₁ : threads.1 < l.length)
    (h₂ : threads.2 < l.length) (hne : threads.1 ≠ threads.2) :
    Round.InRange ⟨threads, moneys, before, (l.set threads.1 moneys.1).set threads.2 moneys.2⟩ where
  length := by simpa using hlen
  first := by
    rw [List.getElem?_set_ne hne.symm, List.getElem?_set_self h₁]
  second := List.getElem?_set_self (by simpa using h₂)
  other := fun i m hi₁ hi₂ hm => by
    rw [List.getElem?_set_ne hi₂.symm, List.getElem?_set_ne hi₁.symm] at hm
    exact hl m (List.mem_of_getElem? hm)

/-- **The loop over the amounts**, where both threads have an entry. -/
theorem rounds_ok (rng : ℕ → Amount) {length : ℕ} {threads : ℕ × ℕ} {cfg : Cfg} (hlen : cfg.initMoney.length ≤ length)
    (h₁ : threads.1 < length) (h₂ : threads.2 < length) (hne : threads.1 ≠ threads.2)
    (moneys : List (ℤ × ℤ)) :
    ∃ rs cfg', rounds rng length threads moneys cfg = some (rs, cfg') ∧
      (rs.map fun r => (r.threads, r.moneys)) = moneys.map (threads, ·) ∧
      (∀ r ∈ rs, r.InRange) ∧ (cfg.initMoney.length = length → cfg'.initMoney.length = length) := by
  induction moneys generalizing cfg with
  | nil => exact ⟨[], cfg, rfl, rfl, by simp, id⟩
  | cons money moneys ih =>
    let l := (List.range length).map fun i => (rng (cfg.drawn + i)).val
    have hl : l.length = length := by simp [l]
    have hset₁ : setItem l threads.1 money.1 = some (l.set threads.1 money.1) :=
      setItem_eq_some.mpr ⟨hl ▸ h₁, rfl⟩
    have hset₂ : setItem (l.set threads.1 money.1) threads.2 money.2 =
        some ((l.set threads.1 money.1).set threads.2 money.2) :=
      setItem_eq_some.mpr ⟨by rwa [List.length_set, hl], rfl⟩
    have hbuilt : ((l.set threads.1 money.1).set threads.2 money.2).length = length := by
      rw [List.length_set, List.length_set, hl]
    obtain ⟨rs, cfg', hrs, hkeys, hok, hlast⟩ :=
      @ih ⟨(l.set threads.1 money.1).set threads.2 money.2, cfg.drawn + length⟩ hbuilt.le
    refine ⟨⟨threads, money, cfg.initMoney, (l.set threads.1 money.1).set threads.2 money.2⟩ :: rs, cfg', ?_, ?_, ?_,
      fun _ => hlast hbuilt⟩
    · rw [rounds, hset₁, Option.bind_eq_bind, Option.bind_some, hset₂, Option.bind_eq_bind, Option.bind_some, hrs]
      rfl
    · rw [List.map_cons, hkeys, List.map_cons]
    · refine List.forall_mem_cons.mpr ⟨inRange_set (fun m hm => ?_) (hl ▸ hlen) (hl ▸ h₁) (hl ▸ h₂) hne, hok⟩
      obtain ⟨i, -, rfl⟩ := List.mem_map.mp hm
      exact (rng _).inRange

/-- Where there is an amount at all, both threads have an entry in the new list. -/
theorem lt_of_rounds {length : ℕ} {threads : ℕ × ℕ} {cfg : Cfg} {money : ℤ × ℤ} {moneys : List (ℤ × ℤ)}
    {out : List Round × Cfg} (h : rounds rng length threads (money :: moneys) cfg = some out) :
    threads.1 < length ∧ threads.2 < length := by
  rw [rounds, Option.bind_eq_bind, Option.bind_eq_some_iff] at h
  obtain ⟨l₁, hset₁, h⟩ := h
  rw [Option.bind_eq_bind, Option.bind_eq_some_iff] at h
  obtain ⟨l₂, hset₂, -⟩ := h
  obtain ⟨h₁, rfl⟩ := setItem_eq_some.mp hset₁
  obtain ⟨h₂, rfl⟩ := setItem_eq_some.mp hset₂
  simp only [List.length_set, List.length_map, List.length_range] at h₁ h₂
  exact ⟨h₁, h₂⟩

/-! ### Two threads -/

theorem sysMoney_ok (rng : ℕ → Amount) {cfg : Cfg} {threads : ℕ × ℕ} (h₁ : threads.1 < cfg.initMoney.length)
    (h₂ : threads.2 < cfg.initMoney.length) (hne : threads.1 ≠ threads.2) :
    ∃ rs cfg', sysMoney rng cfg threads = some (rs, cfg') ∧
      (rs.map fun r => (r.threads, r.moneys)) = generateMoney.map (threads, ·) ∧
      (∀ r ∈ rs, r.InRange) ∧ cfg'.initMoney.length = cfg.initMoney.length := by
  have hlength : max cfg.initMoney.length (max threads.1 threads.2) = cfg.initMoney.length :=
    max_eq_left (max_lt h₁ h₂).le
  obtain ⟨rs, cfg', hrs, hkeys, hok, hlast⟩ := rounds_ok rng le_rfl h₁ h₂ hne generateMoney
  refine ⟨rs, cfg', ?_, hkeys, hok, hlast rfl⟩
  rw [sysMoney, hlength, hrs]

/-- **The boundary**: a list that is as long as the larger thread number has no entry for it. -/
theorem lt_of_sysMoney {cfg : Cfg} {threads : ℕ × ℕ} {out : List Round × Cfg}
    (h : sysMoney rng cfg threads = some out) :
    threads.1 < cfg.initMoney.length ∧ threads.2 < cfg.initMoney.length := by
  have ⟨h₁, h₂⟩ := lt_of_rounds h
  have hlt : max threads.1 threads.2 < max cfg.initMoney.length (max threads.1 threads.2) := max_lt h₁ h₂
  obtain hlen | hlen := lt_max_iff.mp hlt
  · exact max_lt_iff.mp hlen
  · exact absurd hlen (lt_irrefl _)

/-! ### Every two threads -/

theorem mem_of_mem_combinations {α : Type} {l : List α} {p : α × α} (hp : p ∈ combinations l) :
    p.1 ∈ l ∧ p.2 ∈ l := by
  induction l with
  | nil => exact absurd hp List.not_mem_nil
  | cons x xs ih =>
    obtain hp | hp := List.mem_append.mp hp
    · obtain ⟨y, hy, rfl⟩ := List.mem_map.mp hp
      exact ⟨List.mem_cons_self, List.mem_cons_of_mem _ hy⟩
    · exact (ih hp).imp (List.mem_cons_of_mem _) (List.mem_cons_of_mem _)

/-- Two that are combined are different. -/
theorem ne_of_mem_combinations {α : Type} {l : List α} (hl : l.Nodup) {p : α × α}
    (hp : p ∈ combinations l) : p.1 ≠ p.2 := by
  induction l with
  | nil => exact absurd hp List.not_mem_nil
  | cons x xs ih =>
    have ⟨hx, hxs⟩ := List.nodup_cons.mp hl
    obtain hp | hp := List.mem_append.mp hp
    · obtain ⟨y, hy, rfl⟩ := List.mem_map.mp hp
      exact fun h : x = y => hx (h ▸ hy)
    · exact ih hxs hp

/-- In a list of two or more, each is combined with another. -/
theorem exists_mem_combinations {α : Type} {l : List α} (hl : 2 ≤ l.length) {t : α} (ht : t ∈ l) :
    ∃ p ∈ combinations l, p.1 = t ∨ p.2 = t := by
  match l, hl with
  | x :: y :: xs, _ =>
    obtain rfl | ht := List.mem_cons.mp ht
    · exact ⟨(t, y), by simp [combinations], .inl rfl⟩
    · exact ⟨(x, t), List.mem_append_left _ (List.mem_map.mpr ⟨t, ht, rfl⟩), .inr rfl⟩

/-- **The loop over the threads**, where all of them have an entry. -/
theorem sysThreads_ok {n : ℕ} {pairs : List (ℕ × ℕ)}
    (hpairs : ∀ p ∈ pairs, (p.1 < n ∧ p.2 < n) ∧ p.1 ≠ p.2) {cfg : Cfg} (hn : cfg.initMoney.length = n) :
    ∃ rs cfg', sysThreads rng pairs cfg = some (rs, cfg') ∧
      (rs.map fun r => (r.threads, r.moneys)) = pairs.product generateMoney ∧ ∀ r ∈ rs, r.InRange := by
  induction pairs generalizing cfg with
  | nil => exact ⟨[], cfg, rfl, rfl, by simp⟩
  | cons threads pairs ih =>
    have ⟨⟨⟨h₁, h₂⟩, hne⟩, hpairs⟩ := List.forall_mem_cons.mp hpairs
    obtain ⟨rs, cfg₁, hrs, hkeys, hok, hlen⟩ := sysMoney_ok rng (hn ▸ h₁) (hn ▸ h₂) hne
    obtain ⟨rs', cfg₂, hrs', hkeys', hok'⟩ := ih hpairs (hlen.trans hn)
    refine ⟨rs ++ rs', cfg₂, ?_, ?_, fun r hr => (List.mem_append.mp hr).elim (hok r) (hok' r)⟩
    · simp [sysThreads, hrs, hrs']
    · rw [List.map_append, hkeys, hkeys']
      rfl

/-- **A run that is not ended by an error** has an entry for every thread that is combined, from the
first list on. -/
theorem lt_of_sysThreads {pairs : List (ℕ × ℕ)} {cfg : Cfg} {out : List Round × Cfg}
    (hne : ∀ p ∈ pairs, p.1 ≠ p.2) (h : sysThreads rng pairs cfg = some out) :
    ∀ p ∈ pairs, p.1 < cfg.initMoney.length ∧ p.2 < cfg.initMoney.length := by
  induction pairs generalizing cfg out with
  | nil => simp
  | cons threads pairs ih =>
    rw [sysThreads, Option.bind_eq_bind, Option.bind_eq_some_iff] at h
    obtain ⟨⟨rs, cfg₁⟩, hrs, h⟩ := h
    obtain ⟨⟨rs', cfg₂⟩, hrs', -⟩ := Option.bind_eq_some_iff.mp h
    have ⟨hthreads, hne⟩ := List.forall_mem_cons.mp hne
    have ⟨h₁, h₂⟩ := lt_of_sysMoney hrs
    obtain ⟨_, _, hrs₁, -, -, hlen⟩ := sysMoney_ok rng h₁ h₂ hthreads
    obtain ⟨rfl, rfl⟩ : (rs, cfg₁) = _ := Option.some.inj (hrs.symm.trans hrs₁)
    exact List.forall_mem_cons.mpr ⟨⟨h₁, h₂⟩, hlen ▸ ih hne hrs'⟩

/-! ### The main result -/

/-- **The lists are as they should be exactly when every thread that is combined has an entry** in the
list of the configuration. -/
theorem samplesInRange_iff (rng : ℕ → Amount) {ctrlThread : List ℕ} (hctrl : ctrlThread.Nodup)
    (initMoney : List ℤ) :
    SamplesInRange rng ctrlThread initMoney ↔
      ctrlThread.length < 2 ∨ ∀ t ∈ ctrlThread, t < initMoney.length := by
  constructor
  · rintro ⟨rs, cfg, hrun, -, -⟩
    apply or_iff_not_imp_left.mpr
    intro hlen t ht
    obtain ⟨p, hp, h⟩ := exists_mem_combinations (not_lt.mp hlen) ht
    have ⟨h₁, h₂⟩ := lt_of_sysThreads (fun p hp => ne_of_mem_combinations hctrl hp) hrun p hp
    exact h.elim (· ▸ h₁) (· ▸ h₂)
  · intro h
    refine sysThreads_ok (fun p hp => ⟨?_, ne_of_mem_combinations hctrl hp⟩) rfl
    have ⟨h₁, h₂⟩ := mem_of_mem_combinations hp
    obtain hlen | h := h
    · match ctrlThread, hlen with
      | [], _ => exact absurd h₁ List.not_mem_nil
      | [t], _ => exact absurd hp List.not_mem_nil
    · exact ⟨h p.1 h₁, h p.2 h₂⟩

/-- Three threads, and an amount for each. -/
theorem samplesInRange_three : SamplesInRange (fun _ => ⟨2, by decide⟩) [0, 1, 2] [2, 2, 2] :=
  (samplesInRange_iff _ (by decide) [2, 2, 2]).mpr (.inr (by decide))

/-- Threads 0 and 2 are controlled, and the list has two amounts: `max(2, 2)` is no entry for thread 2. -/
theorem not_samplesInRange_boundary :
    ¬ SamplesInRange (fun _ => ⟨2, by decide⟩) [0, 2] [2, 2] := by
  rintro ⟨rs, cfg, hrun, -, -⟩
  exact absurd (lt_of_sysThreads (by decide) hrun (0, 2) (by decide)).2 (by decide)

end SysCtrl

end Scripts

end Schnauzer
