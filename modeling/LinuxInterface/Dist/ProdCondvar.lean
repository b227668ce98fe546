/-
  threads/prod_condvar.c (tlpi-dist): any number of producers and a consumer that sleeps on a
  condition variable.

  1. **The program** — `producerStep` is one step of a producer, `mainStep` one of the consumer loop
     in `main`.  `pthread_cond_wait` gives the mutex back and falls asleep in one step; a sleeper
     that has been woken takes the mutex again.  `avail++` and `avail--` are a load and a store.
     Spurious wake-ups are steps of their own.  All numbers are `int`s; `Fits` says that the
     arguments do not make them overflow.

  2. **The invariant** — the mutex keeps copies of `avail` fresh, so what was produced is either
     available or consumed (`Inv.count`); and no wake-up is lost: while `main` sleeps with units
     available, a producer that has made one has not signalled yet (`Inv.wake`), although the
     signal is sent after the unlock.

  3. **The end** — `prod_condvar_total`: without spurious wake-ups a run is bounded, and it ends with
     `main` gone and at least `totRequired` units consumed; only if no argument asks for a unit
     does `main` sleep for ever.
-/
import LinuxInterface.Base.Interleave
import LinuxInterface.Base.Mutex
import LinuxInterface.Base.SizeT
import Mathlib.Algebra.BigOperators.Ring.Finset
import Mathlib.Algebra.Order.Group.Abs
import Mathlib.Algebra.Order.BigOperators.Group.Finset
import Mathlib.Algebra.Order.Ring.Int
import Mathlib.Data.Fintype.BigOperators

namespace LinuxInterface.ProdCondvar

open LinuxInterface

/-- Where a producer is; `loc` is `avail` as it has loaded it. -/
inductive ProducerPc where
  | top | lock | load | store (loc : Int) | unlock | signal | finished
  deriving DecidableEq

structure Producer where
  pc : ProducerPc
  j : Int
  deriving DecidableEq

/-- Where `main` is in its loop.  In `asleep` it is in `pthread_cond_wait`. -/
inductive MainPc where
  | lock | testEmpty | wait | asleep | consume | take | dec (loc : Int) | unlock | exited
  deriving DecidableEq

structure Main where
  pc : MainPc
  numConsumed : Int
  done : Bool
  deriving DecidableEq

/-- `none` is `main`. -/
structure Shared (ι : Type) where
  mtx : Option (Option ι)
  avail : Int
  /-- `main` is on the condition variable and has not been woken. -/
  sleeping : Bool

structure State (ι : Type) where
  prods : ι → Producer
  main : Main
  g : Shared ι

variable {ι : Type}

/-- One step of the producer `i`, which is asked for `cnt` units. -/
def producerStep (cnt : Int) (i : ι) (l : Producer) (g : Shared ι) : Option (Producer × Shared ι) :=
  match l.pc with
  | .top => some ({ l with pc := if l.j < cnt then .lock else .finished }, g)
  | .lock => if g.mtx = none then some ({ l with pc := .load }, { g with mtx := some (some i) }) else none
  | .load => some ({ l with pc := .store g.avail }, g)
  | .store loc => some ({ l with pc := .unlock }, { g with avail := addInt loc 1 })
  | .unlock => some ({ l with pc := .signal }, { g with mtx := none })
  | .signal => some (⟨.top, addInt l.j 1⟩, { g with sleeping := false })
  | .finished => none

/-- One step of the consumer. -/
def mainStep (totRequired : Int) (m : Main) (g : Shared ι) : Option (Main × Shared ι) :=
  match m.pc with
  | .lock => if g.mtx = none then some ({ m with pc := .testEmpty }, { g with mtx := some none }) else none
  | .testEmpty => some ({ m with pc := if g.avail = 0 then .wait else .consume }, g)
  | .wait => some ({ m with pc := .asleep }, { g with mtx := none, sleeping := true })
  | .asleep =>
    if g.sleeping = false ∧ g.mtx = none then
      some ({ m with pc := .testEmpty }, { g with mtx := some none })
    else none
  | .consume => some ({ m with pc := if 0 < g.avail then .take else .unlock }, g)
  | .take => some ({ m with pc := .dec g.avail, numConsumed := addInt m.numConsumed 1 }, g)
  | .dec loc =>
    some ({ m with pc := .consume, done := totRequired ≤ m.numConsumed },
      { g with avail := addInt loc (-1) })
  | .unlock => some ({ m with pc := if m.done then .exited else .lock }, { g with mtx := none })
  | .exited => none

/-- Whose step it is; `spurious` wakes `main` for no reason. -/
inductive Act (ι : Type) where
  | producer (i : ι)
  | main
  | spurious
  deriving DecidableEq

/-- `totRequired` when all threads have been created: the sum of the arguments as an `int`. -/
def totRequired [Fintype ι] (cnt : ι → Int) : Int := (∑ i, cnt i).bmod (2 ^ 32)

/-- One step.  When `main` has called `exit` nobody takes one. -/
def step [DecidableEq ι] [Fintype ι] (cnt : ι → Int) (s : State ι) : Act ι → Option (State ι)
  | .producer i =>
    if s.main.pc = .exited then none
    else (producerStep (cnt i) i (s.prods i) s.g).map fun lg =>
      ⟨Function.update s.prods i lg.1, s.main, lg.2⟩
  | .main => (mainStep (totRequired cnt) s.main s.g).map fun mg => ⟨s.prods, mg.1, mg.2⟩
  | .spurious =>
    if s.g.sleeping then some { s with g := { s.g with sleeping := false } } else none

/-- All threads have been created. -/
def start (ι : Type) : State ι := ⟨fun _ => ⟨.top, 0⟩, ⟨.lock, 0, false⟩, ⟨none, 0, false⟩⟩

/-! ## What each thread knows -/

def ProducerPc.inside : ProducerPc → Bool
  | .load | .store _ | .unlock => true
  | .top | .lock | .signal | .finished => false

def MainPc.inside : MainPc → Bool
  | .testEmpty | .wait | .consume | .take | .dec _ | .unlock => true
  | .lock | .asleep | .exited => false

/-- The units a producer has made available. -/
def produced (l : Producer) : Int :=
  match l.pc with
  | .unlock | .signal => l.j + 1
  | _ => l.j

/-- A unit is counted as consumed before `avail` says so. -/
def MainPc.early : MainPc → Int
  | .dec _ => 1
  | _ => 0

structure ProducerOk (cnt : Int) (l : Producer) (avail : Int) : Prop where
  nonneg : 0 ≤ l.j
  bound : produced l ≤ max cnt 0
  more : l.pc ≠ .top → l.pc ≠ .finished → l.j < cnt
  copy : ∀ loc, l.pc = .store loc → loc = avail
  ended : l.pc = .finished → cnt ≤ l.j

structure MainOk (totRequired : Int) (m : Main) (g : Shared ι) : Prop where
  nonneg : 0 ≤ m.numConsumed
  wait : m.pc = .wait → g.avail = 0
  take : m.pc = .take → 0 < g.avail
  dec : ∀ loc, m.pc = .dec loc → loc = g.avail ∧ 0 < g.avail ∧ 0 < m.numConsumed
  done : m.pc.early = 0 → (m.done = true ↔ 0 < m.numConsumed ∧ totRequired ≤ m.numConsumed)
  /-- Only with `done` does the loop end. -/
  exited : m.pc = .exited → m.done = true
  waits : m.pc = .lock ∨ m.pc = .testEmpty ∨ m.pc = .wait ∨ m.pc = .asleep → m.done = false
  asleep : g.sleeping = true → m.pc = .asleep

section Threads

variable {cnt tot : Int} {i : ι} {l l' : Producer} {m m' : Main} {g g' : Shared ι}

/-- **One step of a producer.**  It makes the units it counts, only inside does it touch `avail`, and
    whoever makes a unit signals before it goes on. -/
theorem ProducerOk.step (h : ProducerOk cnt l g.avail) (hcnt : cnt < 2 ^ 31) (hnn : 0 ≤ g.avail)
    (hroom : ∀ loc, l.pc = .store loc → g.avail + 1 < 2 ^ 31)
    (hstep : producerStep cnt i l g = some (l', g')) :
    ProducerOk cnt l' g'.avail ∧ LockStep (some i) l.pc.inside l'.pc.inside g.mtx g'.mtx ∧
      g'.avail + produced l = g.avail + produced l' ∧ g.avail ≤ g'.avail ∧
      (l.pc.inside = false → g'.avail = g.avail) ∧
      (g'.sleeping = true → g.sleeping = true ∧ l.pc ≠ .signal ∧
        (l.pc = .unlock → l'.pc = .signal) ∧ (g'.avail = g.avail ∨ l'.pc = .unlock)) := by
  obtain ⟨pc, j⟩ := l
  have hj0 : 0 ≤ j := h.nonneg
  unfold producerStep at hstep
  cases pc with
  | top =>
    cases hstep
    have hbound : j ≤ max cnt 0 := h.bound
    dsimp only
    by_cases hj : j < cnt
    · rw [if_pos hj]
      exact ⟨⟨hj0, hbound, fun _ _ => hj, nofun, nofun⟩, .keep rfl rfl, rfl, Int.le_refl _,
        fun _ => rfl, fun hs => ⟨hs, nofun, nofun, Or.inl rfl⟩⟩
    · rw [if_neg hj]
      exact ⟨⟨hj0, hbound, fun _ hf => absurd rfl hf, nofun, fun _ => Int.not_lt.mp hj⟩,
        .keep rfl rfl, rfl, Int.le_refl _, fun _ => rfl, fun hs => ⟨hs, nofun, nofun, Or.inl rfl⟩⟩
  | lock =>
    dsimp only at hstep
    split at hstep
    · rename_i hfree
      cases hstep
      exact ⟨⟨hj0, h.bound, fun _ _ => h.more nofun nofun, nofun, nofun⟩, .acquire hfree rfl rfl, rfl,
        Int.le_refl _, fun _ => rfl, fun hs => ⟨hs, nofun, nofun, Or.inl rfl⟩⟩
    · nomatch hstep
  | load =>
    cases hstep
    exact ⟨⟨hj0, h.bound, fun _ _ => h.more nofun nofun,
      fun loc hloc => (ProducerPc.store.inj hloc).symm, nofun⟩, .keep rfl rfl, rfl, Int.le_refl _,
      nofun, fun hs => ⟨hs, nofun, nofun, Or.inl rfl⟩⟩
  | store loc =>
    cases hstep
    have hj : j < cnt := h.more nofun nofun
    have hloc : loc = g.avail := h.copy loc rfl
    have hfits := hroom loc rfl
    have hnext : addInt loc 1 = loc + 1 := addInt_eq (by omega) (by omega)
    rw [hnext]
    refine ⟨⟨hj0, ?_, fun _ _ => hj, nofun, nofun⟩, .keep rfl rfl, ?_, ?_, nofun,
      fun hs => ⟨hs, nofun, nofun, Or.inr rfl⟩⟩
    · show j + 1 ≤ max cnt 0
      omega
    · show loc + 1 + j = g.avail + (j + 1)
      omega
    · show g.avail ≤ loc + 1
      omega
  | unlock =>
    cases hstep
    exact ⟨⟨hj0, h.bound, fun _ _ => h.more nofun nofun, nofun, nofun⟩, .release rfl rfl rfl, rfl,
      Int.le_refl _, nofun, fun hs => ⟨hs, nofun, fun _ => rfl, Or.inl rfl⟩⟩
  | signal =>
    cases hstep
    have hj : j < cnt := h.more nofun nofun
    have hnext : addInt j 1 = j + 1 := addInt_eq (by omega) (by omega)
    rw [hnext]
    exact ⟨⟨Int.le_add_one hj0, h.bound, fun ht => absurd rfl ht, nofun, nofun⟩, .keep rfl rfl, rfl,
      Int.le_refl _, fun _ => rfl, nofun⟩
  | finished => nomatch hstep

/-- **One step of `main`.**  It falls asleep only when there is nothing. -/
theorem MainOk.step (h : MainOk tot m g) (hnn : 0 ≤ g.avail)
    (hroom : g.avail + m.numConsumed < 2 ^ 31 + m.pc.early)
    (hstep : mainStep tot m g = some (m', g')) :
    MainOk tot m' g' ∧ LockStep none m.pc.inside m'.pc.inside g.mtx g'.mtx ∧
      g'.avail + m'.numConsumed + m.pc.early = g.avail + m.numConsumed + m'.pc.early ∧
      0 ≤ g'.avail ∧ (m.pc.inside = false → g'.avail = g.avail) ∧
      (g'.sleeping = true → g'.avail = 0) := by
  obtain ⟨pc, numConsumed, done⟩ := m
  have hc0 : 0 ≤ numConsumed := h.nonneg
  unfold mainStep at hstep
  cases pc with
  | lock =>
    dsimp only at hstep
    split at hstep
    · rename_i hfree
      cases hstep
      exact ⟨⟨hc0, nofun, nofun, nofun, fun _ => h.done rfl, nofun, fun _ => h.waits (Or.inl rfl),
        fun hs => nomatch h.asleep hs⟩, .acquire hfree rfl rfl, rfl, hnn, fun _ => rfl,
        fun hs => nomatch h.asleep hs⟩
    · nomatch hstep
  | testEmpty =>
    cases hstep
    have hdone := h.waits (Or.inr (Or.inl rfl))
    dsimp only
    by_cases h0 : g.avail = 0
    · rw [if_pos h0]
      exact ⟨⟨hc0, fun _ => h0, nofun, nofun, fun _ => h.done rfl, nofun, fun _ => hdone,
        fun hs => nomatch h.asleep hs⟩, .keep rfl rfl, rfl, hnn, nofun, fun hs => nomatch h.asleep hs⟩
    · rw [if_neg h0]
      exact ⟨⟨hc0, nofun, nofun, nofun, fun _ => h.done rfl, nofun, fun _ => hdone,
        fun hs => nomatch h.asleep hs⟩, .keep rfl rfl, rfl, hnn, nofun, fun hs => nomatch h.asleep hs⟩
  | wait =>
    cases hstep
    have hdone := h.waits (Or.inr (Or.inr (Or.inl rfl)))
    exact ⟨⟨hc0, nofun, nofun, nofun, fun _ => h.done rfl, nofun, fun _ => hdone, fun _ => rfl⟩,
      .release rfl rfl rfl, rfl, hnn, nofun, fun _ => h.wait rfl⟩
  | asleep =>
    dsimp only at hstep
    split at hstep
    · rename_i hwoken
      cases hstep
      have hdone := h.waits (Or.inr (Or.inr (Or.inr rfl)))
      exact ⟨⟨hc0, nofun, nofun, nofun, fun _ => h.done rfl, nofun, fun _ => hdone,
        fun hs => nomatch hwoken.1.symm.trans hs⟩, .acquire hwoken.2 rfl rfl, rfl, hnn, fun _ => rfl,
        fun hs => nomatch hwoken.1.symm.trans hs⟩
    · nomatch hstep
  | consume =>
    cases hstep
    dsimp only
    by_cases hpos : 0 < g.avail
    · rw [if_pos hpos]
      exact ⟨⟨hc0, nofun, fun _ => hpos, nofun, fun _ => h.done rfl, nofun, nofun,
        fun hs => nomatch h.asleep hs⟩, .keep rfl rfl, rfl, hnn, nofun, fun hs => nomatch h.asleep hs⟩
    · rw [if_neg hpos]
      exact ⟨⟨hc0, nofun, nofun, nofun, fun _ => h.done rfl, nofun, nofun,
        fun hs => nomatch h.asleep hs⟩, .keep rfl rfl, rfl, hnn, nofun, fun hs => nomatch h.asleep hs⟩
  | take =>
    cases hstep
    have hpos := h.take rfl
    have hfits : g.avail + numConsumed < 2 ^ 31 + 0 := hroom
    have hnext : addInt numConsumed 1 = numConsumed + 1 := addInt_eq (by omega) (by omega)
    rw [hnext]
    refine ⟨⟨Int.le_add_one hc0, nofun, nofun, fun loc hloc => ⟨(MainPc.dec.inj hloc).symm, hpos, ?_⟩,
      nofun, nofun, nofun, fun hs => nomatch h.asleep hs⟩, .keep rfl rfl, ?_, hnn, nofun,
      fun hs => nomatch h.asleep hs⟩
    · show 0 < numConsumed + 1
      omega
    · show g.avail + (numConsumed + 1) + 0 = g.avail + numConsumed + 1
      omega
  | dec loc =>
    cases hstep
    obtain ⟨hloc, hpos, hconsumed⟩ := h.dec loc rfl
    have hconsumed : 0 < numConsumed := hconsumed
    have hfits : g.avail + numConsumed < 2 ^ 31 + 1 := hroom
    have hprev : addInt loc (-1) = loc - 1 := addInt_eq (by omega) (by omega)
    rw [hprev]
    refine ⟨⟨hc0, nofun, nofun, nofun, fun _ => ?_, nofun, nofun, fun hs => nomatch h.asleep hs⟩,
      .keep rfl rfl, ?_, ?_, nofun, fun hs => nomatch h.asleep hs⟩
    · show decide (tot ≤ numConsumed) = true ↔ 0 < numConsumed ∧ tot ≤ numConsumed
      rw [decide_eq_true_iff]
      exact ⟨fun htot => ⟨hconsumed, htot⟩, fun htot => htot.2⟩
    · show loc - 1 + numConsumed + 1 = g.avail + numConsumed + 0
      omega
    · show 0 ≤ loc - 1
      omega
  | unlock =>
    cases hstep
    cases done with
    | true =>
      exact ⟨⟨hc0, nofun, nofun, nofun, fun _ => h.done rfl, fun _ => rfl, nofun,
        fun hs => nomatch h.asleep hs⟩, .release rfl rfl rfl, rfl, hnn, nofun, fun hs => nomatch h.asleep hs⟩
    | false =>
      exact ⟨⟨hc0, nofun, nofun, nofun, fun _ => h.done rfl, nofun, fun _ => rfl,
        fun hs => nomatch h.asleep hs⟩, .release rfl rfl rfl, rfl, hnn, nofun, fun hs => nomatch h.asleep hs⟩
  | exited => nomatch hstep

/-- What others may do. -/
theorem MainOk.frame (h : MainOk tot m g) (havail : m.pc.inside = true → g'.avail = g.avail)
    (hsleep : g'.sleeping = true → g.sleeping = true) : MainOk tot m g' where
  nonneg := h.nonneg
  wait := fun hpc => by
    rw [havail (by rw [hpc]; rfl)]
    exact h.wait hpc
  take := fun hpc => by
    rw [havail (by rw [hpc]; rfl)]
    exact h.take hpc
  dec := fun loc hpc => by
    rw [havail (by rw [hpc]; rfl)]
    exact h.dec loc hpc
  done := h.done
  exited := h.exited
  waits := h.waits
  asleep := fun hs => h.asleep (hsleep hs)

end Threads

/-! ## All threads -/

/-- Who is inside. -/
def inside (s : State ι) : Option ι → Bool
  | none => s.main.pc.inside
  | some i => (s.prods i).pc.inside

/-- A producer with a copy is inside. -/
theorem inside_of_store {s : State ι} {j : ι} {loc : Int} (hloc : (s.prods j).pc = .store loc) :
    inside s (some j) = true := by
  show (s.prods j).pc.inside = true
  rw [hloc]
  rfl

section Update

variable [DecidableEq ι]

theorem inside_prods (s : State ι) (i : ι) (l' : Producer) (g' : Shared ι) :
    inside ⟨Function.update s.prods i l', s.main, g'⟩ =
      fun t => Function.update (inside s) (some i) l'.pc.inside t := by
  funext t
  cases t with
  | none =>
    rw [Function.update_of_ne (Option.some_ne_none i).symm]
    rfl
  | some j =>
    by_cases hj : j = i
    · subst hj
      rw [Function.update_self]
      show (Function.update s.prods j l' j).pc.inside = _
      rw [Function.update_self]
    · have hne : (some j : Option ι) ≠ some i := fun h => hj (Option.some.inj h)
      rw [Function.update_of_ne hne]
      show (Function.update s.prods i l' j).pc.inside = _
      rw [Function.update_of_ne hj]
      rfl

theorem inside_main (s : State ι) (m' : Main) (g' : Shared ι) :
    inside ⟨s.prods, m', g'⟩ = fun t => Function.update (inside s) none m'.pc.inside t := by
  funext t
  cases t with
  | none =>
    rw [Function.update_self]
    rfl
  | some j =>
    rw [Function.update_of_ne (Option.some_ne_none j)]
    rfl

end Update

variable [Fintype ι]

/-- What the arguments ask for; a negative one asks for nothing. -/
def asked (cnt : ι → Int) : Nat := ∑ i, (cnt i).toNat

/-- No sum of arguments overflows. -/
def Fits (cnt : ι → Int) : Prop := ∑ i, (cnt i).natAbs < 2 ^ 31

structure Inv (cnt : ι → Int) (s : State ι) : Prop where
  owned : Owned (inside s) s.g.mtx
  nonneg : 0 ≤ s.g.avail
  each : ∀ i, ProducerOk (cnt i) (s.prods i) s.g.avail
  main : MainOk (totRequired cnt) s.main s.g
  /-- Nothing is lost. -/
  count : s.g.avail + s.main.numConsumed = (∑ i, produced (s.prods i)) + s.main.pc.early
  /-- No wake-up is lost. -/
  wake : s.g.sleeping = true → 0 < s.g.avail →
    ∃ i, (s.prods i).pc = .unlock ∨ (s.prods i).pc = .signal

theorem inv_start (cnt : ι → Int) : Inv cnt (start ι) where
  owned := owned_start fun t => by cases t <;> rfl
  nonneg := Int.le_refl 0
  each := fun _ => ⟨Int.le_refl 0, Int.le_max_right _ _, fun ht => absurd rfl ht, nofun, nofun⟩
  main := ⟨Int.le_refl 0, nofun, nofun, nofun,
    fun _ => ⟨nofun, fun h => absurd h.1 (Int.lt_irrefl 0)⟩, nofun, fun _ => rfl, nofun⟩
  count := by
    show (0 : Int) + 0 = (∑ _i : ι, 0) + 0
    rw [Finset.sum_const_zero]
  wake := nofun

section Bounds

variable {cnt : ι → Int} {s : State ι}

theorem Fits.asked_lt (hfit : Fits cnt) : asked cnt < 2 ^ 31 := by
  refine Nat.lt_of_le_of_lt (Finset.sum_le_sum fun i _ => ?_) hfit
  omega

theorem Fits.lt (hfit : Fits cnt) (i : ι) : cnt i < 2 ^ 31 := by
  have hone : (cnt i).natAbs ≤ ∑ j, (cnt j).natAbs :=
    Finset.single_le_sum (f := fun j => (cnt j).natAbs) (fun _ _ => Nat.zero_le _) (Finset.mem_univ i)
  have hsum : ∑ j, (cnt j).natAbs < 2 ^ 31 := hfit
  omega

/-- `totRequired` is the sum of the arguments. -/
theorem Fits.totRequired_eq (hfit : Fits cnt) : totRequired cnt = ∑ i, cnt i := by
  have habs : |∑ i, cnt i| ≤ ((∑ i, (cnt i).natAbs : Nat) : Int) := by
    refine (Finset.abs_sum_le_sum_abs _ _).trans (Int.le_of_eq ?_)
    rw [Nat.cast_sum]
    exact Finset.sum_congr rfl fun i _ => (Int.natCast_natAbs (cnt i)).symm
  have hsum : ∑ j, (cnt j).natAbs < 2 ^ 31 := hfit
  obtain ⟨hlow, hhigh⟩ := abs_le.mp habs
  exact Int.bmod_eq_of_le (by omega) (by omega)

theorem asked_cast (cnt : ι → Int) : (asked cnt : Int) = ∑ i, max (cnt i) 0 := by
  rw [asked, Nat.cast_sum]
  exact Finset.sum_congr rfl fun i _ => Int.ofNat_toNat (cnt i)

theorem Inv.produced_le (h : Inv cnt s) : ∑ i, produced (s.prods i) ≤ asked cnt := by
  rw [asked_cast]
  exact Finset.sum_le_sum fun i _ => (h.each i).bound

/-- There is room for the unit that a producer is about to count. -/
theorem Inv.room (h : Inv cnt s) (hfit : Fits cnt) {i : ι} {loc : Int}
    (hpc : (s.prods i).pc = .store loc) : s.g.avail + 1 < 2 ^ 31 := by
  have hlt : ∑ j, produced (s.prods j) < asked cnt := by
    rw [asked_cast]
    refine Finset.sum_lt_sum (fun j _ => (h.each j).bound) ⟨i, Finset.mem_univ i, ?_⟩
    have hmore := (h.each i).more (by rw [hpc]; nofun) (by rw [hpc]; nofun)
    have hproduced : produced (s.prods i) = (s.prods i).j := by
      rw [produced, hpc]
    omega
  have hasked := hfit.asked_lt
  have hcount := h.count
  have hconsumed : s.main.pc.early ≤ s.main.numConsumed := by
    have hnn := h.main.nonneg
    cases hm : s.main.pc with
    | dec loc =>
      have hpos := (h.main.dec loc hm).2.2
      show 1 ≤ s.main.numConsumed
      omega
    | _ => exact hnn
  omega

/-- And for the one that `main` is about to count. -/
theorem Inv.room_main (h : Inv cnt s) (hfit : Fits cnt) :
    s.g.avail + s.main.numConsumed < 2 ^ 31 + s.main.pc.early := by
  have hasked := hfit.asked_lt
  have hcount := h.count
  have hle := h.produced_le
  omega

end Bounds

variable [DecidableEq ι] {cnt : ι → Int} {s s' : State ι}

/-- A producer's step. -/
theorem Inv.producer_step (h : Inv cnt s) (hfit : Fits cnt) {i : ι} {l' : Producer} {g' : Shared ι}
    (hstep : producerStep (cnt i) i (s.prods i) s.g = some (l', g')) :
    Inv cnt ⟨Function.update s.prods i l', s.main, g'⟩ := by
  obtain ⟨hok, hlock, hcount, hmono, hout, hsleep⟩ :=
    (h.each i).step (hfit.lt i) h.nonneg (fun _ hpc => h.room hfit hpc) hstep
  have hsum := sum_update_of_mem (fun _ l => produced l) s.prods l' (Finset.mem_univ i)
  have hold := h.count
  -- whoever else is inside finds `avail` as it was
  have hframe : ∀ t, t ≠ some i → inside s t = true → g'.avail = s.g.avail := by
    intro t ht hin
    exact hout (Bool.eq_false_iff.mpr fun hi => ht (h.owned.unique hin hi))
  refine ⟨?_, Int.le_trans h.nonneg hmono,
    forall_update (J := fun j l => ProducerOk (cnt j) l g'.avail) hok fun j hj => ?_,
    ?_, ?_, fun hs hpos => ?_⟩
  · rw [inside_prods]
    exact Owned.step (f := id) h.owned hlock
  · obtain ⟨hnn, hbound, hmore, hcopy, hended⟩ := h.each j
    refine ⟨hnn, hbound, hmore, fun loc hloc => ?_, hended⟩
    rw [hframe (some j) (fun he => hj (Option.some.inj he)) (inside_of_store hloc)]
    exact hcopy loc hloc
  · exact h.main.frame (hframe none nofun) fun hs => (hsleep hs).1
  · show g'.avail + s.main.numConsumed =
      (∑ j, produced (Function.update s.prods i l' j)) + s.main.pc.early
    omega
  · obtain ⟨hs, hsig, hunlock, havail⟩ := hsleep hs
    rcases havail with hsame | hnew
    · -- the one that was going to signal still is
      obtain ⟨k, hk⟩ := h.wake hs (hsame ▸ hpos)
      refine ⟨k, ?_⟩
      show (Function.update s.prods i l' k).pc = .unlock ∨ (Function.update s.prods i l' k).pc = .signal
      by_cases hki : k = i
      · subst hki
        rw [Function.update_self]
        exact Or.inr (hunlock (hk.resolve_right hsig))
      · rw [Function.update_of_ne hki]
        exact hk
    · refine ⟨i, Or.inl ?_⟩
      show (Function.update s.prods i l' i).pc = .unlock
      rw [Function.update_self]
      exact hnew

/-- A step of `main`. -/
theorem Inv.main_step (h : Inv cnt s) (hfit : Fits cnt) {m' : Main} {g' : Shared ι}
    (hstep : mainStep (totRequired cnt) s.main s.g = some (m', g')) : Inv cnt ⟨s.prods, m', g'⟩ := by
  obtain ⟨hok, hlock, hcount, hnn, hout, hsleep⟩ := h.main.step h.nonneg (h.room_main hfit) hstep
  have hold := h.count
  refine ⟨?_, hnn, fun j => ?_, hok, ?_, fun hs hpos => ?_⟩
  · rw [inside_main]
    exact Owned.step (f := id) h.owned hlock
  · obtain ⟨hnn, hbound, hmore, hcopy, hended⟩ := h.each j
    refine ⟨hnn, hbound, hmore, fun loc hloc => ?_, hended⟩
    have hsame : g'.avail = s.g.avail := by
      refine hout (Bool.eq_false_iff.mpr fun hi => ?_)
      nomatch h.owned.unique (i := some j) (j := none) (inside_of_store hloc) hi
    rw [hsame]
    exact hcopy loc hloc
  · show g'.avail + m'.numConsumed = (∑ j, produced (s.prods j)) + m'.pc.early
    omega
  · exact absurd hpos (by rw [hsleep hs]; exact Int.lt_irrefl 0)

/-- **One step.** -/
theorem Inv.step {act : Act ι} (h : Inv cnt s) (hfit : Fits cnt)
    (hstep : ProdCondvar.step cnt s act = some s') : Inv cnt s' := by
  cases act with
  | producer i =>
    rw [ProdCondvar.step] at hstep
    split at hstep
    · nomatch hstep
    · obtain ⟨⟨l', g'⟩, hl, rfl⟩ := Option.map_eq_some_iff.mp hstep
      exact h.producer_step hfit hl
  | main =>
    obtain ⟨⟨m', g'⟩, hm, rfl⟩ := Option.map_eq_some_iff.mp hstep
    exact h.main_step hfit hm
  | spurious =>
    rw [ProdCondvar.step] at hstep
    split at hstep
    · cases hstep
      exact ⟨h.owned, h.nonneg, h.each, h.main.frame (fun _ => rfl) nofun, h.count, nofun⟩
    · nomatch hstep

/-! ## The measure -/

/-- What a producer may still do: a unit costs six steps of its own, seven of `main` when it is
    consumed and six when it is signalled. -/
def Producer.rank (cnt : Int) (l : Producer) : Nat :=
  let rest := 19 * (cnt - l.j).toNat
  match l.pc with
  | .top => rest + 1
  | .lock => rest
  | .load => rest - 1
  | .store _ => rest - 2
  | .unlock => rest - 10
  | .signal => rest - 11
  | .finished => 0

/-- What `main` may still do before it sleeps again. -/
def MainPc.rank (avail : Int) : MainPc → Nat
  | .lock => 6
  | .testEmpty => 5
  | .wait => 1
  | .asleep => 0
  | .consume => if 0 < avail then 4 else 8
  | .take => 3
  | .dec _ => 2
  | .unlock => 7
  | .exited => 0

/-- A sleeper that has been woken goes on. -/
def Shared.woken (g : Shared ι) (pc : MainPc) : Nat :=
  if pc = .asleep ∧ g.sleeping = false then 6 else 0

def measure (cnt : ι → Int) (s : State ι) : Nat :=
  (∑ i, (s.prods i).rank (cnt i)) + s.main.pc.rank s.g.avail + s.g.woken s.main.pc + 7 * s.g.avail.toNat

section Measure

omit [Fintype ι] [DecidableEq ι]

variable {c tot : Int} {i : ι} {l l' : Producer} {m m' : Main} {g g' : Shared ι} {pc : MainPc}

/-- `avail` matters to `main` only inside. -/
theorem rank_of_outside (hout : pc.inside = false) (a b : Int) : pc.rank a = pc.rank b := by
  cases pc with
  | consume => nomatch hout
  | _ => rfl

theorem woken_le (g : Shared ι) (pc : MainPc) : g.woken pc ≤ 6 := by
  unfold Shared.woken
  split <;> decide

theorem producer_measure (h : ProducerOk c l g.avail) (hcnt : c < 2 ^ 31) (hnn : 0 ≤ g.avail)
    (hroom : ∀ loc, l.pc = .store loc → g.avail + 1 < 2 ^ 31)
    (hpc : l.pc.inside = true → pc.inside = false)
    (hstep : producerStep c i l g = some (l', g')) :
    l'.rank c + pc.rank g'.avail + g'.woken pc + 7 * g'.avail.toNat + 1 ≤
      l.rank c + pc.rank g.avail + g.woken pc + 7 * g.avail.toNat := by
  obtain ⟨lpc, j⟩ := l
  have hj0 : 0 ≤ j := h.nonneg
  have hmore : lpc ≠ .top → lpc ≠ .finished → j < c := h.more
  unfold producerStep at hstep
  cases lpc with
  | top =>
    cases hstep
    dsimp only
    split
    · show 19 * (c - j).toNat + _ + _ + _ + 1 ≤ 19 * (c - j).toNat + 1 + _ + _ + _
      omega
    · show 0 + _ + _ + _ + 1 ≤ 19 * (c - j).toNat + 1 + _ + _ + _
      omega
  | lock =>
    have hj := hmore nofun nofun
    dsimp only at hstep
    split at hstep
    · cases hstep
      show 19 * (c - j).toNat - 1 + pc.rank g.avail + g.woken pc + 7 * g.avail.toNat + 1 ≤
        19 * (c - j).toNat + _ + _ + _
      omega
    · nomatch hstep
  | load =>
    have hj := hmore nofun nofun
    cases hstep
    show 19 * (c - j).toNat - 2 + _ + _ + _ + 1 ≤ 19 * (c - j).toNat - 1 + _ + _ + _
    omega
  | store loc =>
    have hj := hmore nofun nofun
    have hloc : loc = g.avail := h.copy loc rfl
    have hfits := hroom loc rfl
    have hnext : addInt loc 1 = loc + 1 := addInt_eq (by omega) (by omega)
    cases hstep
    rw [rank_of_outside (hpc rfl) _ g.avail, hnext]
    show 19 * (c - j).toNat - 10 + _ + g.woken pc + 7 * (loc + 1).toNat + 1 ≤
      19 * (c - j).toNat - 2 + _ + _ + _
    omega
  | unlock =>
    have hj := hmore nofun nofun
    cases hstep
    show 19 * (c - j).toNat - 11 + pc.rank g.avail + g.woken pc + 7 * g.avail.toNat + 1 ≤
      19 * (c - j).toNat - 10 + _ + _ + _
    omega
  | signal =>
    -- it may have woken `main`
    have hj := hmore nofun nofun
    cases hstep
    have hwoken := woken_le { g with sleeping := false } pc
    have hnext : addInt j 1 = j + 1 := addInt_eq (by omega) (by omega)
    have hrest : (c - (j + 1)).toNat + 1 = (c - j).toNat := by omega
    rw [hnext]
    show 19 * (c - (j + 1)).toNat + 1 + pc.rank g.avail + _ + 7 * g.avail.toNat + 1 ≤
      19 * (c - j).toNat - 11 + _ + _ + _
    omega
  | finished => nomatch hstep

theorem main_measure (h : MainOk tot m g) (hnn : 0 ≤ g.avail)
    (hroom : g.avail + m.numConsumed < 2 ^ 31 + m.pc.early)
    (hstep : mainStep tot m g = some (m', g')) :
    m'.pc.rank g'.avail + g'.woken m'.pc + 7 * g'.avail.toNat + 1 ≤
      m.pc.rank g.avail + g.woken m.pc + 7 * g.avail.toNat := by
  obtain ⟨pc, numConsumed, done⟩ := m
  unfold mainStep at hstep
  cases pc with
  | lock =>
    dsimp only at hstep
    split at hstep
    · cases hstep
      show 5 + 0 + 7 * g.avail.toNat + 1 ≤ 6 + _ + _
      omega
    · nomatch hstep
  | testEmpty =>
    cases hstep
    dsimp only
    by_cases h0 : g.avail = 0
    · rw [if_pos h0]
      show 1 + 0 + _ + 1 ≤ 5 + _ + _
      omega
    · rw [if_neg h0]
      show (if 0 < g.avail then 4 else 8) + 0 + _ + 1 ≤ 5 + _ + _
      rw [if_pos (by omega)]
      omega
  | wait =>
    cases hstep
    show 0 + 0 + 7 * g.avail.toNat + 1 ≤ 1 + _ + _
    omega
  | asleep =>
    dsimp only at hstep
    split at hstep
    · rename_i hwoken
      cases hstep
      have hsix : g.woken .asleep = 6 := if_pos ⟨rfl, hwoken.1⟩
      rw [hsix]
      show 5 + 0 + 7 * g.avail.toNat + 1 ≤ 0 + 6 + _
      omega
    · nomatch hstep
  | consume =>
    cases hstep
    dsimp only
    by_cases hpos : 0 < g.avail
    · rw [if_pos hpos]
      show 3 + 0 + _ + 1 ≤ (if 0 < g.avail then 4 else 8) + _ + _
      rw [if_pos hpos]
      omega
    · rw [if_neg hpos]
      show 7 + 0 + _ + 1 ≤ (if 0 < g.avail then 4 else 8) + _ + _
      rw [if_neg hpos]
      omega
  | take =>
    cases hstep
    show 2 + 0 + _ + 1 ≤ 3 + _ + _
    omega
  | dec loc =>
    cases hstep
    obtain ⟨hloc, hpos, hconsumed⟩ := h.dec loc rfl
    have hconsumed : 0 < numConsumed := hconsumed
    have hfits : g.avail + numConsumed < 2 ^ 31 + 1 := hroom
    have hprev : addInt loc (-1) = loc - 1 := addInt_eq (by omega) (by omega)
    rw [hprev]
    show (if 0 < loc - 1 then 4 else 8) + 0 + 7 * (loc - 1).toNat + 1 ≤ 2 + _ + _
    split <;> omega
  | unlock =>
    cases hstep
    cases done with
    | true =>
      show 0 + 0 + 7 * g.avail.toNat + 1 ≤ 7 + _ + _
      omega
    | false =>
      show 6 + 0 + 7 * g.avail.toNat + 1 ≤ 7 + _ + _
      omega
  | exited => nomatch hstep

end Measure

/-- No spurious wake-up. -/
def Act.real : Act ι → Bool
  | .spurious => false
  | _ => true

/-- **A real step makes the measure smaller.** -/
theorem measure_step {act : Act ι} (h : Inv cnt s) (hfit : Fits cnt) (hreal : act.real = true)
    (hstep : ProdCondvar.step cnt s act = some s') : measure cnt s' + 1 ≤ measure cnt s := by
  cases act with
  | producer i =>
    rw [ProdCondvar.step] at hstep
    split at hstep
    · nomatch hstep
    · obtain ⟨⟨l', g'⟩, hl, rfl⟩ := Option.map_eq_some_iff.mp hstep
      have hnot : (s.prods i).pc.inside = true → s.main.pc.inside = false := by
        intro hi
        refine Bool.eq_false_iff.mpr fun hm => ?_
        nomatch h.owned.unique (i := some i) (j := none) hi hm
      have hone :=
        producer_measure (h.each i) (hfit.lt i) h.nonneg (fun _ hpc => h.room hfit hpc) hnot hl
      have hsum : (∑ j, (Function.update s.prods i l' j).rank (cnt j)) + (s.prods i).rank (cnt i) =
          (∑ j, (s.prods j).rank (cnt j)) + l'.rank (cnt i) :=
        sum_update_of_mem (fun j l => Producer.rank (cnt j) l) s.prods l' (Finset.mem_univ i)
      unfold measure
      dsimp only
      omega
  | main =>
    obtain ⟨⟨m', g'⟩, hm, rfl⟩ := Option.map_eq_some_iff.mp hstep
    have hone := main_measure h.main h.nonneg (h.room_main hfit) hm
    unfold measure
    dsimp only
    omega
  | spurious => nomatch hreal

/-! ## No deadlock -/

/-- The one way to be stuck: nobody is left to wake `main`. -/
structure Abandoned (s : State ι) : Prop where
  finished : ∀ i, (s.prods i).pc = .finished
  asleep : s.main.pc = .asleep
  avail : s.g.avail = 0

/-- A producer inside can go on, and so can one outside while the mutex is free. -/
theorem producer_enabled {i : ι} (hexit : s.main.pc ≠ .exited)
    (hpc : (s.prods i).pc.inside = true ∨ s.g.mtx = none ∧ (s.prods i).pc ≠ .finished) :
    (ProdCondvar.step cnt s (.producer i)).isSome = true := by
  rw [ProdCondvar.step, if_neg hexit, Option.isSome_map, producerStep]
  cases h : (s.prods i).pc with
  | lock =>
    rw [h] at hpc
    dsimp only
    rw [if_pos (hpc.resolve_left nofun).1]
    rfl
  | finished =>
    rw [h] at hpc
    exact hpc.elim nofun fun hpc => absurd rfl hpc.2
  | _ => rfl

/-- **No deadlock**, unless nobody is left to wake `main`. -/
theorem Inv.progress (h : Inv cnt s) (hexit : s.main.pc ≠ .exited) :
    (∃ act : Act ι, act.real = true ∧ (ProdCondvar.step cnt s act).isSome = true) ∨ Abandoned s := by
  cases hmtx : s.g.mtx with
  | some t =>
    -- the owner
    have hin : inside s t = true := (h.owned t).mpr hmtx
    cases t with
    | some i => exact Or.inl ⟨.producer i, rfl, producer_enabled hexit (Or.inl hin)⟩
    | none =>
      refine Or.inl ⟨.main, rfl, ?_⟩
      rw [ProdCondvar.step, Option.isSome_map, mainStep]
      have hin : s.main.pc.inside = true := hin
      cases hpc : s.main.pc with
      | lock => rw [hpc] at hin; nomatch hin
      | asleep => rw [hpc] at hin; nomatch hin
      | exited => exact absurd hpc hexit
      | _ => rfl
  | none =>
    by_cases hprods : ∃ i, (s.prods i).pc ≠ .finished
    · obtain ⟨i, hi⟩ := hprods
      exact Or.inl ⟨.producer i, rfl, producer_enabled hexit (Or.inr ⟨hmtx, hi⟩)⟩
    · have hfinished : ∀ i, (s.prods i).pc = .finished := by
        intro i
        by_contra hi
        exact hprods ⟨i, hi⟩
      have hout : s.main.pc.inside = false := (hmtx ▸ h.owned : Owned _ none).none_inside none
      have hmain : s.g.sleeping = false ∨ s.main.pc ≠ .asleep → ∃ act : Act ι, act.real = true ∧
          (ProdCondvar.step cnt s act).isSome = true := by
        intro hawake
        refine ⟨.main, rfl, ?_⟩
        rw [ProdCondvar.step, Option.isSome_map, mainStep]
        cases hpc : s.main.pc with
        | lock =>
          dsimp only
          rw [if_pos hmtx]
          rfl
        | asleep =>
          dsimp only
          rw [if_pos ⟨hawake.resolve_right fun hne => hne hpc, hmtx⟩]
          rfl
        | exited => exact absurd hpc hexit
        | _ => rw [hpc] at hout; nomatch hout
      by_cases hawake : s.g.sleeping = false ∨ s.main.pc ≠ .asleep
      · exact Or.inl (hmain hawake)
      · rw [not_or, Bool.not_eq_false, not_not] at hawake
        refine Or.inr ⟨hfinished, hawake.2, ?_⟩
        -- units would mean a producer that has not signalled
        by_contra hne
        have hnn := h.nonneg
        obtain ⟨i, hi⟩ := h.wake hawake.1 (by omega)
        rw [hfinished i] at hi
        exact hi.elim nofun nofun

/-! ## The end -/

omit [DecidableEq ι] in
/-- What has been consumed when `main` is gone. -/
theorem Inv.exited (h : Inv cnt s) (hfit : Fits cnt) (hexit : s.main.pc = .exited) :
    0 < s.main.numConsumed ∧ ∑ i, cnt i ≤ s.main.numConsumed ∧ s.main.numConsumed ≤ asked cnt := by
  have hearly : s.main.pc.early = 0 := by rw [hexit]; rfl
  have hdone := (h.main.done hearly).mp (h.main.exited hexit)
  have hcount := h.count
  have hnn := h.nonneg
  have hle := h.produced_le
  rw [hfit.totRequired_eq] at hdone
  exact ⟨hdone.1, hdone.2, by omega⟩

omit [DecidableEq ι] in
theorem sum_le_asked (cnt : ι → Int) : ∑ i, cnt i ≤ asked cnt := by
  rw [asked_cast]
  exact Finset.sum_le_sum fun i _ => Int.le_max_left (cnt i) 0

omit [DecidableEq ι] in
/-- `main` is abandoned only if nothing was asked for. -/
theorem Inv.abandoned (h : Inv cnt s) (hfit : Fits cnt) (hleft : Abandoned s) :
    asked cnt = 0 ∧ s.main.numConsumed = 0 := by
  have hearly : s.main.pc.early = 0 := by rw [hleft.asleep]; rfl
  have hall : ∑ i, produced (s.prods i) = asked cnt := by
    rw [asked_cast]
    refine Finset.sum_congr rfl fun i _ => ?_
    have hbound := (h.each i).bound
    have hnn := (h.each i).nonneg
    have hended := (h.each i).ended (hleft.finished i)
    have hproduced : produced (s.prods i) = (s.prods i).j := by
      rw [produced, hleft.finished i]
    omega
  have hcount := h.count
  rw [hleft.avail, hall, hearly] at hcount
  have hnot : ¬ (0 < s.main.numConsumed ∧ totRequired cnt ≤ s.main.numConsumed) := by
    intro hdone
    have htrue := (h.main.done hearly).mpr hdone
    have hfalse := h.main.waits (Or.inr (Or.inr (Or.inr hleft.asleep)))
    nomatch hfalse.symm.trans htrue
  rw [hfit.totRequired_eq] at hnot
  have hsum := sum_le_asked cnt
  have hnn := h.main.nonneg
  have hzero : s.main.numConsumed = 0 := by
    by_contra hne
    exact hnot ⟨by omega, by omega⟩
  exact ⟨by omega, hzero⟩

/-- No spurious wake-ups. -/
def Real (_ : State ι) (act : Act ι) : Prop := act.real = true

instance (s : State ι) (act : Act ι) : Decidable (Real s act) := inferInstanceAs (Decidable (_ = _))

/-- **Nothing is lost.**  In every reachable state two threads are never inside together, the units
    produced are those available and those consumed, and when `main` has ended it has consumed
    what was required: exactly what was asked for, if no argument is negative. -/
theorem prod_condvar_safe (hfit : Fits cnt) (h : Reach (ProdCondvar.step cnt) Any (start ι) s) :
    (∀ t u, inside s t = true → inside s u = true → t = u) ∧
      s.g.avail + s.main.numConsumed = (∑ i, produced (s.prods i)) + s.main.pc.early ∧
      (s.main.pc = .exited → ∑ i, cnt i ≤ s.main.numConsumed ∧ s.main.numConsumed ≤ asked cnt ∧
        ((∀ i, 0 ≤ cnt i) → s.main.numConsumed = ∑ i, cnt i)) := by
  have hinv : Inv cnt s := h.inv (inv_start cnt) fun _ _ _ hI _ hstep => hI.step hfit hstep
  refine ⟨fun t u ht hu => hinv.owned.unique ht hu, hinv.count, fun hexit => ?_⟩
  obtain ⟨-, hlow, hhigh⟩ := hinv.exited hfit hexit
  refine ⟨hlow, hhigh, fun hpos => ?_⟩
  have hasked : (asked cnt : Int) = ∑ i, cnt i := by
    rw [asked_cast]
    exact Finset.sum_congr rfl fun i _ => max_eq_left (hpos i)
  omega

/-- **The program comes to an end** when there are no spurious wake-ups: its steps are bounded, and
    where none is left `main` has consumed what was required and is gone.  The exception is a command
    line that asks for nothing: then `main` sleeps for ever. -/
theorem prod_condvar_total (hfit : Fits cnt) {acts : List (Act ι)}
    (h : runList (ProdCondvar.step cnt) Real (start ι) acts = some s) :
    acts.length ≤ 19 * asked cnt + Fintype.card ι + 6 ∧
      ((∀ act : Act ι, act.real = true → ProdCondvar.step cnt s act = none) →
        s.main.pc = .exited ∧ 0 < asked cnt ∧ ∑ i, cnt i ≤ s.main.numConsumed ∨
          s.main.pc = .asleep ∧ asked cnt = 0) := by
  have hone : ∀ s act s', Inv cnt s → Real s act → ProdCondvar.step cnt s act = some s' →
      Inv cnt s' ∧ measure cnt s' + (if true then 1 else 0) ≤ measure cnt s :=
    fun s act s' hinv hreal hstep => ⟨hinv.step hfit hstep, measure_step hinv hfit hreal hstep⟩
  obtain ⟨hinv, hcount⟩ := runList_bound hone (inv_start cnt) h
  have hstart : measure cnt (start ι) = 19 * asked cnt + Fintype.card ι + 6 := by
    have hrank : ∀ i, ((start ι).prods i).rank (cnt i) = 19 * (cnt i).toNat + 1 := by
      intro i
      show 19 * (cnt i - 0).toNat + 1 = _
      rw [Int.sub_zero]
    show (∑ i, ((start ι).prods i).rank (cnt i)) + 6 + 0 + 7 * 0 = _
    rw [Finset.sum_congr rfl fun i _ => hrank i, Finset.sum_add_distrib, ← Finset.mul_sum,
      Finset.sum_const, Finset.card_univ, asked]
    simp
  have hlen : acts.countP (fun _ => true) = acts.length := congrFun List.countP_true acts
  refine ⟨by omega, fun hstuck => ?_⟩
  by_cases hexit : s.main.pc = .exited
  · obtain ⟨hpos, hlow, hhigh⟩ := hinv.exited hfit hexit
    exact Or.inl ⟨hexit, by omega, hlow⟩
  · rcases hinv.progress hexit with ⟨act, hreal, hsome⟩ | hleft
    · rw [hstuck act hreal] at hsome
      nomatch hsome
    · exact Or.inr ⟨hleft.asleep, (hinv.abandoned hfit hleft).1⟩

/-- `main` sleeps before anything is produced; one producer is late with its signal, which comes
    when `main` is gone. -/
def lateSignal : List (Act Bool) :=
  List.replicate 3 .main ++ List.replicate 5 (.producer false) ++ List.replicate 6 (.producer true) ++
    List.replicate 10 .main

/-- What the run of `lateSignal` leads to, when both arguments are 1. -/
theorem lateSignal_run :
    (runList (ProdCondvar.step fun _ => 1) Real (start Bool) lateSignal).map (fun s => s.main.pc) =
      some .exited := by decide +kernel

theorem prod_condvar_safe_lateSignal : ∃ s : State Bool, s.main.pc = .exited ∧
    s.main.numConsumed = ∑ _i : Bool, 1 := by
  obtain ⟨s, hs, hexit⟩ := Reach.of_observed lateSignal_run
  have hany : Reach (ProdCondvar.step fun _ => 1) Any (start Bool) s :=
    hs.mono fun _ _ _ => trivial
  have hfit : Fits (fun _ : Bool => 1) := by
    unfold Fits
    decide
  obtain ⟨-, -, hend⟩ := prod_condvar_safe hfit hany
  exact ⟨s, hexit, (hend hexit).2.2 fun _ => Int.one_nonneg⟩

/-- The run of `lateSignal` within its bound, and what is left to do behind it: nothing. -/
theorem prod_condvar_total_lateSignal :
    lateSignal.length = 24 ∧ lateSignal.length ≤ 19 * asked (fun _ : Bool => 1) + Fintype.card Bool + 6 ∧
      ∃ s : State Bool, s.main.pc = .exited ∧ ∑ _i : Bool, 1 ≤ s.main.numConsumed := by
  obtain ⟨s, hs, hexit⟩ := Option.map_eq_some_iff.mp lateSignal_run
  have hfit : Fits (fun _ : Bool => 1) := by
    unfold Fits
    decide
  obtain ⟨hbound, hend⟩ := prod_condvar_total hfit hs
  have hstuck : ∀ act : Act Bool, act.real = true → ProdCondvar.step (fun _ => 1) s act = none := by
    intro act hreal
    cases act with
    | producer i => exact if_pos hexit
    | main =>
      rw [ProdCondvar.step, mainStep, hexit]
      rfl
    | spurious => nomatch hreal
  refine ⟨rfl, hbound, s, ?_⟩
  rcases hend hstuck with hdone | hasleep
  · exact ⟨hdone.1, hdone.2.2⟩
  · nomatch hexit.symm.trans hasleep.1

end LinuxInterface.ProdCondvar
