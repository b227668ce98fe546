/-
  threads/thread_incr.c and thread_incr_mutex.c (tlpi-dist): threads that increment a global
  variable, without and with a mutex.  psem/thread_incr_psem.c differs from the second in the
  functions it calls: a semaphore with the value 1 is taken and given back like the mutex.

  1. **The programs** — `threadFunc` is one step of a thread: the loop test (with the lock), the
     load of `glob`, the store of the incremented copy, the unlock.  `locked` tells the two programs
     apart.  `glob`, `loc` and `j` are `int`s, so the results are about numbers of increments that
     an `int` can hold.

  2. **With the mutex** — the copy is still the value of `glob` when it is stored, so no update is
     lost: `locked_exact`.

  3. **Without it** — updates are lost, but not below two: the last store is the last one of its
     thread, which has loaded what was stored before it (`Late`), and `glob` never goes back to 0.
     `unlocked_bounds`.
-/
import LinuxInterface.Base.Interleave
import LinuxInterface.Base.Mutex
import LinuxInterface.Base.SizeT
import Mathlib.Algebra.Order.BigOperators.Group.Finset
import Mathlib.Algebra.Order.Ring.Int
import Mathlib.Data.Fintype.BigOperators

namespace LinuxInterface.ThreadIncr

open LinuxInterface

/-- Where a thread is; at the store it has `loc`, the value it has loaded. -/
inductive Pc where
  | top | load | store (loc : Int) | unlock | finished
  deriving DecidableEq

def Pc.inside : Pc → Bool
  | .load | .store _ | .unlock => true
  | .top | .finished => false

/-- A thread: where it is, and its `j`. -/
structure Local where
  pc : Pc
  j : Int
  deriving DecidableEq

structure Shared (ι : Type) where
  glob : Int
  mtx : Option ι

variable {ι : Type}

/-- One step of thread `i`. -/
def threadFunc (locked : Bool) (loops : Int) (i : ι) (_ : Unit) (l : Local) (g : Shared ι) :
    Option (Local × Shared ι) :=
  match l.pc with
  | .top =>
    if l.j < loops then
      if locked then
        if g.mtx = none then some (⟨.load, l.j⟩, { g with mtx := some i }) else none
      else some (⟨.load, l.j⟩, g)
    else some (⟨.finished, l.j⟩, g)
  | .load => some (⟨.store g.glob, l.j⟩, g)
  | .store loc =>
    some (if locked then ⟨.unlock, l.j⟩ else ⟨.top, addInt l.j 1⟩, { g with glob := addInt loc 1 })
  | .unlock => some (⟨.top, addInt l.j 1⟩, { g with mtx := none })
  | .finished => none

/-- `main` has created the threads. -/
def start (ι : Type) : Pool ι Local (Shared ι) := ⟨fun _ => ⟨.top, 0⟩, ⟨0, none⟩⟩

abbrev step [DecidableEq ι] (locked : Bool) (loops : Int) (p : Pool ι Local (Shared ι)) (c : ι × Unit) :
    Option (Pool ι Local (Shared ι)) :=
  p.step (threadFunc locked loops) c

/-- The increments a thread has stored. -/
def stored (l : Local) : Int := if l.pc = .unlock then l.j + 1 else l.j

variable {loops : Int} {i : ι} {l l' : Local} {g g' : Shared ι}

/-! ## With the mutex -/

/-- What a thread knows: the copy it holds is the value of `glob`. -/
structure Exact (loops : Int) (l : Local) (g : Shared ι) : Prop where
  nonneg : 0 ≤ l.j
  bound : stored l ≤ loops
  more : l.pc.inside = true → l.j < loops
  copy : ∀ loc, l.pc = .store loc → loc = g.glob
  ended : l.pc = .finished → l.j = loops

/-- One step: `glob` grows with what is stored, only a thread inside changes it, and from outside a
    thread goes in or ends. -/
theorem Exact.step (h : Exact loops l g) (hint : loops < 2 ^ 31)
    (hstep : threadFunc true loops i () l g = some (l', g')) :
    Exact loops l' g' ∧ LockStep i l.pc.inside l'.pc.inside g.mtx g'.mtx ∧
      (g'.glob = g.glob ∧ stored l' = stored l ∨
        l.pc.inside = true ∧ g'.glob = addInt g.glob 1 ∧ stored l' = stored l + 1) := by
  obtain ⟨pc, j⟩ := l
  have hnn : 0 ≤ j := h.nonneg
  unfold threadFunc at hstep
  cases pc with
  | top =>
    dsimp only at hstep
    rw [if_pos rfl] at hstep
    by_cases hj : j < loops
    · rw [if_pos hj] at hstep
      split at hstep
      · rename_i hfree
        cases hstep
        exact ⟨⟨hnn, Int.le_of_lt hj, fun _ => hj, nofun, nofun⟩, .acquire hfree rfl rfl,
          Or.inl ⟨rfl, rfl⟩⟩
      · nomatch hstep
    · rw [if_neg hj] at hstep
      cases hstep
      have hle : j ≤ loops := h.bound
      exact ⟨⟨hnn, hle, nofun, nofun, fun _ => Int.le_antisymm hle (Int.not_lt.mp hj)⟩, .keep rfl rfl,
        Or.inl ⟨rfl, rfl⟩⟩
  | load =>
    cases hstep
    have hj : j < loops := h.more rfl
    refine ⟨⟨hnn, Int.le_of_lt hj, fun _ => hj, fun loc hloc => ?_, nofun⟩, .keep rfl rfl,
      Or.inl ⟨rfl, rfl⟩⟩
    exact (Pc.store.inj hloc).symm
  | store loc =>
    cases hstep
    have hj : j < loops := h.more rfl
    have hloc := h.copy loc rfl
    refine ⟨⟨hnn, hj, fun _ => hj, nofun, nofun⟩, .keep rfl rfl, Or.inr ⟨rfl, ?_, rfl⟩⟩
    rw [hloc]
  | unlock =>
    cases hstep
    have hj : j < loops := h.more rfl
    have hnext : addInt j 1 = j + 1 := addInt_eq (by omega) (by omega)
    rw [hnext]
    exact ⟨⟨Int.le_add_one hnn, hj, nofun, nofun, nofun⟩, .release rfl rfl rfl, Or.inl ⟨rfl, rfl⟩⟩
  | finished => nomatch hstep

section Locked

variable [Fintype ι]

/-- Nothing is lost. -/
structure Locked (loops : Int) (p : Pool ι Local (Shared ι)) : Prop where
  owned : Owned (fun i => (p.locals i).pc.inside) p.shared.mtx
  each : ∀ i, Exact loops (p.locals i) p.shared
  total : p.shared.glob = ∑ i, stored (p.locals i)

theorem locked_start (hloops : 0 ≤ loops) : Locked loops (start ι) where
  owned := owned_start fun _ => rfl
  each := fun _ => ⟨Int.le_refl 0, hloops, nofun, nofun, nofun⟩
  total := (Finset.sum_eq_zero fun _ _ => rfl).symm

/-- What none exceeds, all together do not exceed. -/
theorem sum_le_card_mul {f : ι → Int} (h : ∀ i, f i ≤ loops) : ∑ i, f i ≤ Fintype.card ι * loops := by
  have hle := Finset.sum_le_card_nsmul Finset.univ f loops fun i _ => h i
  rwa [Finset.card_univ, nsmul_eq_mul] at hle

/-- A thread that is there makes no more increments than all of them. -/
theorem loops_le_card_mul (hloops : 0 ≤ loops) (i : ι) : loops ≤ Fintype.card ι * loops := by
  have hcard : (1 : Int) ≤ Fintype.card ι := by
    exact_mod_cast Fintype.card_pos_iff.mpr ⟨i⟩
  calc loops = 1 * loops := (one_mul loops).symm
    _ ≤ Fintype.card ι * loops := mul_le_mul_of_nonneg_right hcard hloops

variable [DecidableEq ι]

/-- **One step of the pool.** -/
theorem Locked.step {p p' : Pool ι Local (Shared ι)} {c : ι × Unit} (h : Locked loops p)
    (hloops : 0 ≤ loops) (hfit : Fintype.card ι * loops < 2 ^ 31)
    (hstep : ThreadIncr.step true loops p c = some p') : Locked loops p' := by
  obtain ⟨i, u⟩ := c
  obtain ⟨l', g', hthr, rfl⟩ := Pool.step_eq hstep
  have hint : loops < 2 ^ 31 := Int.lt_of_le_of_lt (loops_le_card_mul hloops i) hfit
  obtain ⟨hexact, hlock, hstored⟩ := (h.each i).step hint hthr
  have hsum := sum_update_of_mem (fun _ l => stored l) p.locals l' (Finset.mem_univ i)
  have hold := h.total
  refine ⟨Owned.step (f := fun l : Local => l.pc.inside) h.owned hlock,
    forall_update (J := fun _ l => Exact loops l g') hexact fun j hj => ?_, ?_⟩
  · obtain ⟨hnn, hbound, hmore, hcopy, hended⟩ := h.each j
    refine ⟨hnn, hbound, hmore, fun loc hloc => ?_, hended⟩
    -- a thread with a copy is inside, so the step was made outside
    have hin : (p.locals j).pc.inside = true := by
      rw [hloc]
      rfl
    rcases hstored with ⟨hsame, -⟩ | ⟨hi, -⟩
    · rw [hsame]
      exact hcopy loc hloc
    · exact absurd (h.owned.unique hin hi) hj
  · show g'.glob = ∑ j, stored (Function.update p.locals i l' j)
    rcases hstored with ⟨hsame, hstored⟩ | ⟨-, hglob, hstored⟩
    · omega
    · -- the sum is still that of numbers up to `loops`, so nothing overflows
      have hbound : ∀ j, stored (Function.update p.locals i l' j) ≤ loops :=
        forall_update (J := fun _ l => stored l ≤ loops) hexact.bound fun j _ => (h.each j).bound
      have hle := sum_le_card_mul hbound
      have hnn : 0 ≤ ∑ j, stored (p.locals j) :=
        Finset.sum_nonneg fun j _ => by
          have hj := (h.each j).nonneg
          unfold stored
          split <;> omega
      rw [hglob, addInt_eq (by omega) (by omega)]
      omega

/-- **No update is lost** with the mutex: when all threads have finished, `glob` is the number of
    threads times the number of loops, if an `int` can hold that. -/
theorem locked_exact {p : Pool ι Local (Shared ι)} (hloops : 0 ≤ loops)
    (hfit : Fintype.card ι * loops < 2 ^ 31)
    (h : Reach (ThreadIncr.step true loops) Any (start ι) p)
    (hend : ∀ i, (p.locals i).pc = .finished) : p.shared.glob = Fintype.card ι * loops := by
  have hinv : Locked loops p :=
    h.inv (locked_start hloops) fun _ _ _ hI _ hstep => hI.step hloops hfit hstep
  have hstored : ∀ i, stored (p.locals i) = loops := by
    intro i
    rw [stored, hend i, if_neg nofun]
    exact (hinv.each i).ended (hend i)
  rw [hinv.total, Finset.sum_congr rfl fun i _ => hstored i, Finset.sum_const, Finset.card_univ,
    nsmul_eq_mul]

end Locked

/-- Two threads and two loops, the threads taking turns. -/
theorem locked_exact_two : ∃ p : Pool Bool Local (Shared Bool),
    (∀ i, (p.locals i).pc = .finished) ∧ p.shared.glob = Fintype.card Bool * 2 := by
  have hrun : (runList (ThreadIncr.step true 2) Any (start Bool)
      ((List.replicate 4 (false, ())) ++ List.replicate 4 (true, ()) ++ List.replicate 5 (false, ()) ++
        List.replicate 5 (true, ()))).map (fun p => ((p.locals false).pc, (p.locals true).pc)) =
      some (.finished, .finished) := by decide +kernel
  obtain ⟨p, hp, hobs⟩ := Reach.of_observed hrun
  obtain ⟨hfalse, htrue⟩ := Prod.mk.inj hobs
  have hend : ∀ i, (p.locals i).pc = .finished := Bool.forall_bool.mpr ⟨hfalse, htrue⟩
  exact ⟨p, hend, locked_exact (by decide) (by decide) hp hend⟩

/-! ## Without the mutex -/

/-- What a thread knows when others interfere; `total` is what all have stored. -/
structure Late (loops total : Int) (l : Local) (g : Shared ι) : Prop where
  nonneg : 0 ≤ l.j
  bound : l.j ≤ loops
  more : l.pc.inside = true → l.j < loops
  noUnlock : l.pc ≠ .unlock
  ended : l.pc = .finished → l.j = loops
  /-- After a store of its own, `glob` is not 0. -/
  began : 1 ≤ l.j → 1 ≤ g.glob
  copyLow : ∀ loc, l.pc = .store loc → 0 ≤ loc ∧ (1 ≤ l.j → 1 ≤ loc)
  copyHigh : ∀ loc, l.pc = .store loc → loc ≤ total

/-- Others only store more, and never 0. -/
theorem Late.mono {total total' : Int} (h : Late loops total l g) (hle : total ≤ total')
    (hglob : 1 ≤ g.glob → 1 ≤ g'.glob) : Late loops total' l g' where
  nonneg := h.nonneg
  bound := h.bound
  more := h.more
  noUnlock := h.noUnlock
  ended := h.ended
  began := fun hj => hglob (h.began hj)
  copyLow := h.copyLow
  copyHigh := fun loc hloc => Int.le_trans (h.copyHigh loc hloc) hle

/-- What a step does to `glob`: nothing, or it stores a copy plus one. -/
theorem Late.step {total : Int} (h : Late loops total l g) (hint : loops < 2 ^ 31)
    (hnn : 0 ≤ g.glob) (hglob : g.glob ≤ total)
    (hstep : threadFunc false loops i () l g = some (l', g')) :
    (g' = g ∧ l'.j = l.j ∧ Late loops total l' g) ∨
    (∃ loc, l.pc = .store loc ∧ l' = ⟨.top, l.j + 1⟩ ∧ g'.glob = addInt loc 1 ∧ l.j < loops) := by
  obtain ⟨pc, j⟩ := l
  have hj0 : 0 ≤ j := h.nonneg
  unfold threadFunc at hstep
  cases pc with
  | top =>
    dsimp only at hstep
    by_cases hj : j < loops
    · rw [if_pos hj] at hstep
      cases hstep
      exact Or.inl ⟨rfl, rfl, hj0, h.bound, fun _ => hj, nofun, nofun, h.began, nofun, nofun⟩
    · rw [if_neg hj] at hstep
      cases hstep
      have hle : j ≤ loops := h.bound
      exact Or.inl ⟨rfl, rfl, hj0, hle, nofun, nofun, fun _ => Int.le_antisymm hle (Int.not_lt.mp hj),
        h.began, nofun, nofun⟩
  | load =>
    cases hstep
    refine Or.inl ⟨rfl, rfl, hj0, h.bound, fun _ => h.more rfl, nofun, nofun, h.began, ?_, ?_⟩
    · intro loc hloc
      rw [← Pc.store.inj hloc]
      exact ⟨hnn, h.began⟩
    · intro loc hloc
      rw [← Pc.store.inj hloc]
      exact hglob
  | store loc =>
    cases hstep
    have hj : j < loops := h.more rfl
    have hnext : addInt j 1 = j + 1 := addInt_eq (by omega) (by omega)
    refine Or.inr ⟨loc, rfl, ?_, rfl, hj⟩
    show (⟨.top, addInt j 1⟩ : Local) = ⟨.top, j + 1⟩
    rw [hnext]
  | unlock => exact absurd rfl h.noUnlock
  | finished => nomatch hstep

section Unlocked

variable [Fintype ι]

/-- The increments all threads have made. -/
def total (p : Pool ι Local (Shared ι)) : Int := ∑ i, (p.locals i).j

structure Unlocked (loops : Int) (p : Pool ι Local (Shared ι)) : Prop where
  each : ∀ i, Late loops (total p) (p.locals i) p.shared
  nonneg : 0 ≤ p.shared.glob
  upper : p.shared.glob ≤ total p
  /-- As long as `glob` is small, some thread has a round to go. -/
  lower : 2 ≤ loops → p.shared.glob ≤ 1 → ∃ i, (p.locals i).j ≤ 1

theorem unlocked_start [Nonempty ι] (hloops : 0 ≤ loops) : Unlocked loops (start ι) where
  each := fun _ => ⟨Int.le_refl 0, hloops, nofun, nofun, nofun, nofun, nofun, nofun⟩
  nonneg := Int.le_refl 0
  upper := Int.le_of_eq (Finset.sum_eq_zero fun _ _ => rfl).symm
  lower := fun _ _ => ⟨Classical.arbitrary ι, Int.zero_le_ofNat 1⟩

variable [DecidableEq ι]

/-- **One step of the pool.** -/
theorem Unlocked.step {p p' : Pool ι Local (Shared ι)} {c : ι × Unit} (h : Unlocked loops p)
    (hloops : 0 ≤ loops) (hfit : Fintype.card ι * loops < 2 ^ 31)
    (hstep : ThreadIncr.step false loops p c = some p') : Unlocked loops p' := by
  obtain ⟨i, u⟩ := c
  obtain ⟨l', g', hthr, rfl⟩ := Pool.step_eq hstep
  have hint : loops < 2 ^ 31 := Int.lt_of_le_of_lt (loops_le_card_mul hloops i) hfit
  have hsum : total ⟨Function.update p.locals i l', g'⟩ + (p.locals i).j = total p + l'.j :=
    sum_update_of_mem (fun _ l => l.j) p.locals l' (Finset.mem_univ i)
  rcases (h.each i).step hint h.nonneg h.upper hthr with
    ⟨rfl, hj, hlate⟩ | ⟨loc, hpc, rfl, hglob, hmore⟩
  · -- `glob` and all counts are as before
    have htotal : total ⟨Function.update p.locals i l', p.shared⟩ = total p := by omega
    refine ⟨?_, h.nonneg, ?_, fun hloops hsmall => ?_⟩
    · rw [htotal]
      exact forall_update (J := fun _ l => Late loops (total p) l p.shared) hlate fun k _ => h.each k
    · rw [htotal]
      exact h.upper
    · obtain ⟨k, hk⟩ := h.lower hloops hsmall
      refine ⟨k, ?_⟩
      by_cases hki : k = i
      · subst hki
        show (Function.update p.locals k l' k).j ≤ 1
        rw [Function.update_self, hj]
        exact hk
      · show (Function.update p.locals i l' k).j ≤ 1
        rw [Function.update_of_ne hki]
        exact hk
  · -- a store: the copy may be old, but it was at most what had been stored
    have hhigh := (h.each i).copyHigh loc hpc
    obtain ⟨hloc, hlow⟩ := (h.each i).copyLow loc hpc
    have htotal : total ⟨Function.update p.locals i ⟨.top, (p.locals i).j + 1⟩, g'⟩ = total p + 1 := by
      have hsum' : _ = total p + ((p.locals i).j + 1) := hsum
      omega
    have hfits : total p + 1 ≤ Fintype.card ι * loops := by
      rw [← htotal]
      exact sum_le_card_mul <| forall_update (J := fun _ (l : Local) => l.j ≤ loops) hmore
        fun k _ => (h.each k).bound
    have hglob : g'.glob = loc + 1 := hglob.trans (addInt_eq (by omega) (by omega))
    refine ⟨?_, ?_, ?_, fun hloops hsmall => ?_⟩
    · rw [htotal]
      refine forall_update (J := fun _ l => Late loops (total p + 1) l g') ?_ fun k _ => ?_
      · have hj0 := (h.each i).nonneg
        refine ⟨Int.le_add_one hj0, hmore, nofun, nofun, nofun, fun _ => ?_, nofun, nofun⟩
        omega
      · exact (h.each k).mono (by omega) fun _ => by omega
    · show 0 ≤ g'.glob
      omega
    · rw [htotal]
      show g'.glob ≤ total p + 1
      omega
    · -- a store of at most 1 is the first of its thread
      have hsmall' : g'.glob ≤ 1 := hsmall
      refine ⟨i, ?_⟩
      show (Function.update p.locals i ⟨.top, (p.locals i).j + 1⟩ i).j ≤ 1
      rw [Function.update_self]
      by_contra hbig
      have hj : 1 ≤ (p.locals i).j := by
        have hbig' : ¬ (p.locals i).j + 1 ≤ 1 := hbig
        omega
      have hone := hlow hj
      omega

/-- **Without the mutex** `glob` ends at most at the number of increments, and at least at 2 if there
    are two rounds: the last store of all is the last of its thread. -/
theorem unlocked_bounds [Nonempty ι] {p : Pool ι Local (Shared ι)} (hloops : 0 ≤ loops)
    (hfit : Fintype.card ι * loops < 2 ^ 31)
    (h : Reach (ThreadIncr.step false loops) Any (start ι) p)
    (hend : ∀ i, (p.locals i).pc = .finished) :
    min 2 loops ≤ p.shared.glob ∧ p.shared.glob ≤ Fintype.card ι * loops := by
  have hinv : Unlocked loops p :=
    h.inv (unlocked_start hloops) fun _ _ _ hI _ hstep => hI.step hloops hfit hstep
  have hj : ∀ i, (p.locals i).j = loops := fun i => (hinv.each i).ended (hend i)
  have htotal : total p = Fintype.card ι * loops := by
    rw [total, Finset.sum_congr rfl fun i _ => hj i, Finset.sum_const, Finset.card_univ, nsmul_eq_mul]
  refine ⟨?_, htotal ▸ hinv.upper⟩
  by_cases htwo : 2 ≤ loops
  · by_contra hlow
    obtain ⟨i, hi⟩ := hinv.lower htwo (by omega)
    have heq := hj i
    omega
  · -- one round or none
    have hnn := hinv.nonneg
    by_cases hzero : loops = 0
    · omega
    · have hbegan := (hinv.each (Classical.arbitrary ι)).began (by rw [hj]; omega)
      omega

end Unlocked

/-- The lower bound is reached: each thread stores over what the other has done, and of four
    increments two are left. -/
theorem unlocked_bounds_two : ∃ p : Pool Bool Local (Shared Bool), p.shared.glob = 2 ∧
    min 2 2 ≤ p.shared.glob ∧ p.shared.glob ≤ Fintype.card Bool * 2 := by
  let a := (false, ())
  let b := (true, ())
  have hrun : (runList (ThreadIncr.step false 2) Any (start Bool)
      [a, a, b, b, b, a, b, b, a, a, a, a, b, b]).map
        (fun p => (p.shared.glob, (p.locals false).pc, (p.locals true).pc)) =
      some (2, .finished, .finished) := by decide +kernel
  obtain ⟨p, hp, hobs⟩ := Reach.of_observed hrun
  obtain ⟨hglob, hpcs⟩ := Prod.mk.inj hobs
  obtain ⟨hfalse, htrue⟩ := Prod.mk.inj hpcs
  have hend : ∀ i, (p.locals i).pc = .finished := Bool.forall_bool.mpr ⟨hfalse, htrue⟩
  exact ⟨p, hglob, unlocked_bounds (by decide) (by decide) hp hend⟩

end LinuxInterface.ThreadIncr
