/-
  threads/one_time_init.c (tlpi-dist): `one_time_init`, called any number of times by each of any
  number of threads.

  1. **The function** — `threadStep` is one step of a thread that makes `n` calls, one after the
     other: the lock, the test of `called`, the beginning and the end of `init`, the assignment, the
     unlock.  The label says whether a pthread function succeeds; its error number is compared with
     -1, which it never is, so a failure goes unnoticed.

  2. **The invariant** — a thread inside knows how far the initialisation has come, since it is
     alone there (`At`); between the calls it has not begun or is over (`Quiet`).

  3. **Once** — `one_time_init_once`.  It needs the lock: `twice_without_lock`.
-/
import LinuxInterface.Base.Interleave
import LinuxInterface.Base.Mutex

namespace LinuxInterface.OneTimeInit

open LinuxInterface

/-- Where a thread is in `one_time_init`. -/
inductive Pc where
  | lock | test | init | initRunning | mark | unlock | finished
  deriving DecidableEq

/-- Between the lock and the unlock. -/
def Pc.inside : Pc → Bool
  | .test | .init | .initRunning | .mark | .unlock => true
  | .lock | .finished => false

/-- A thread: where it is, and how many of its calls have returned. -/
structure Local where
  pc : Pc
  returned : Nat
  deriving DecidableEq

/-- `struct once_struct`, and how often `init` has been called and has returned. -/
structure Once (ι : Type) where
  mtx : Option ι
  called : Bool
  begun : Nat
  ended : Nat

variable {ι : Type}

/-- Back from a call: the next one, or the end of the thread. -/
def afterCall (n : Nat) (l : Local) : Local :=
  ⟨if l.returned + 1 < n then .lock else .finished, l.returned + 1⟩

/-- One step of thread `i`, which makes `n` calls. -/
def threadStep [DecidableEq ι] (n : Nat) (i : ι) (ok : Bool) (l : Local) (g : Once ι) :
    Option (Local × Once ι) :=
  match l.pc with
  | .lock =>
    -- an error number is not -1: on it goes without the mutex
    if ok then if g.mtx = none then some ({ l with pc := .test }, { g with mtx := some i }) else none
    else some ({ l with pc := .test }, g)
  | .test => some ({ l with pc := if g.called then .unlock else .init }, g)
  | .init => some ({ l with pc := .initRunning }, { g with begun := g.begun + 1 })
  | .initRunning => some ({ l with pc := .mark }, { g with ended := g.ended + 1 })
  | .mark => some ({ l with pc := .unlock }, { g with called := true })
  | .unlock => some (afterCall n l, if ok then { g with mtx := none } else g)
  | .finished => none

/-- `ONCE_INITIALIZER`, and nobody has called yet. -/
def start (ι : Type) (n : Nat) : Pool ι Local (Once ι) :=
  ⟨fun _ => ⟨if 0 < n then .lock else .finished, 0⟩, ⟨none, false, 0, 0⟩⟩

/-- No pthread function fails. -/
def NoFail (_ : Pool ι Local (Once ι)) (c : ι × Bool) : Prop := c.2 = true

instance (p : Pool ι Local (Once ι)) (c : ι × Bool) : Decidable (NoFail p c) :=
  inferInstanceAs (Decidable (_ = _))

/-! ## The invariant -/

/-- The initialisation has not begun, or it is over. -/
def Quiet (g : Once ι) : Prop :=
  (g.called = false ∧ g.begun = 0 ∧ g.ended = 0) ∨ (g.called = true ∧ g.begun = 1 ∧ g.ended = 1)

/-- What a thread knows: inside, how far the initialisation is; after a call, that it is over. -/
def At (l : Local) (g : Once ι) : Prop :=
  (l.returned = 0 ∨ g.called = true) ∧
  match l.pc with
  | .test => Quiet g
  | .init => g.called = false ∧ g.begun = 0 ∧ g.ended = 0
  | .initRunning => g.called = false ∧ g.begun = 1 ∧ g.ended = 0
  | .mark => g.called = false ∧ g.begun = 1 ∧ g.ended = 1
  | .unlock => g.called = true ∧ g.begun = 1 ∧ g.ended = 1
  | .lock | .finished => True

structure Inv (p : Pool ι Local (Once ι)) : Prop where
  owned : Owned (fun i => (p.locals i).pc.inside) p.shared.mtx
  each : ∀ i, At (p.locals i) p.shared
  quiet : p.shared.mtx = none → Quiet p.shared

variable {n : Nat} {i : ι} {l l' : Local} {g g' : Once ι}

/-- Outside a thread only remembers whether a call has returned. -/
theorem at_of_outside (hout : l.pc.inside = false) (hret : l.returned = 0 ∨ g.called = true) :
    At l g := by
  obtain ⟨pc, returned⟩ := l
  refine ⟨hret, ?_⟩
  cases pc with
  | lock => trivial
  | finished => trivial
  | _ => nomatch hout

theorem start_outside (n : Nat) (i : ι) : ((start ι n).locals i).pc.inside = false := by
  show Pc.inside (if 0 < n then .lock else .finished) = false
  split <;> rfl

theorem afterCall_outside (n : Nat) (l : Local) : (afterCall n l).pc.inside = false := by
  show Pc.inside (if l.returned + 1 < n then .lock else .finished) = false
  split <;> rfl

theorem inv_start (n : Nat) : Inv (start ι n) where
  owned := owned_start (start_outside n)
  each := fun i => at_of_outside (start_outside n i) (Or.inl rfl)
  quiet := fun _ => Or.inl ⟨rfl, rfl, rfl⟩

/-- How far the initialisation is in any state. -/
theorem Inv.counts {p : Pool ι Local (Once ι)} (h : Inv p) :
    p.shared.begun ≤ 1 ∧ p.shared.ended ≤ p.shared.begun ∧
      (p.shared.called = true → p.shared.ended = 1) := by
  have hquiet : Quiet p.shared → p.shared.begun ≤ 1 ∧ p.shared.ended ≤ p.shared.begun ∧
      (p.shared.called = true → p.shared.ended = 1) := by
    rintro (⟨hcalled, hbegun, hended⟩ | ⟨-, hbegun, hended⟩)
    · exact ⟨by omega, by omega, fun hc => nomatch hcalled.symm.trans hc⟩
    · exact ⟨by omega, by omega, fun _ => hended⟩
  cases hmtx : p.shared.mtx with
  | none => exact hquiet (h.quiet hmtx)
  | some i =>
    -- the owner knows
    have hin : (p.locals i).pc.inside = true := (h.owned i).mpr hmtx
    have hat := (h.each i).2
    cases hpc : (p.locals i).pc with
    | lock => rw [hpc] at hin; nomatch hin
    | test => rw [hpc] at hat; exact hquiet hat
    | init => rw [hpc] at hat; exact hquiet (Or.inl hat)
    | initRunning =>
      rw [hpc] at hat
      obtain ⟨hcalled, hbegun, hended⟩ := hat
      exact ⟨by omega, by omega, fun hc => nomatch hcalled.symm.trans hc⟩
    | mark =>
      rw [hpc] at hat
      obtain ⟨hcalled, hbegun, hended⟩ := hat
      exact ⟨by omega, by omega, fun hc => nomatch hcalled.symm.trans hc⟩
    | unlock => rw [hpc] at hat; exact hquiet (Or.inr hat)
    | finished => rw [hpc] at hin; nomatch hin

variable [DecidableEq ι]

/-- **One step of a thread**: what it knows, what it does to the mutex, what the others may rely on,
    what it leaves behind, and that from outside it can only go in. -/
theorem At.step (h : At l g) (hquiet : g.mtx = none → Quiet g)
    (hstep : threadStep n i true l g = some (l', g')) :
    At l' g' ∧ LockStep i l.pc.inside l'.pc.inside g.mtx g'.mtx ∧
      (g.called = true → g'.called = true) ∧
      (l.pc.inside = true → l'.pc.inside = false → Quiet g') ∧
      (l.pc.inside = false → g.mtx = none ∧ l'.pc.inside = true) := by
  obtain ⟨pc, returned⟩ := l
  obtain ⟨hret, hat⟩ := h
  unfold threadStep at hstep
  cases pc with
  | lock =>
    dsimp only at hstep
    rw [if_pos rfl] at hstep
    split at hstep
    · rename_i hfree
      cases hstep
      exact ⟨⟨hret, hquiet hfree⟩, .acquire hfree rfl rfl, id, nofun, fun _ => ⟨hfree, rfl⟩⟩
    · nomatch hstep
  | test =>
    cases hstep
    rcases hat with hnew | hold
    · rw [hnew.1]
      exact ⟨⟨hret, hnew⟩, .keep rfl rfl, id, nofun, nofun⟩
    · rw [hold.1]
      exact ⟨⟨hret, hold⟩, .keep rfl rfl, id, nofun, nofun⟩
  | init =>
    cases hstep
    obtain ⟨hcalled, hbegun, hended⟩ := hat
    refine ⟨⟨hret, hcalled, ?_, hended⟩, .keep rfl rfl, id, nofun, nofun⟩
    rw [hbegun]
  | initRunning =>
    cases hstep
    obtain ⟨hcalled, hbegun, hended⟩ := hat
    refine ⟨⟨hret, hcalled, hbegun, ?_⟩, .keep rfl rfl, id, nofun, nofun⟩
    rw [hended]
  | mark =>
    cases hstep
    obtain ⟨-, hbegun, hended⟩ := hat
    exact ⟨⟨Or.inr rfl, rfl, hbegun, hended⟩, .keep rfl rfl, fun _ => rfl, nofun, nofun⟩
  | unlock =>
    cases hstep
    exact ⟨at_of_outside (afterCall_outside n _) (Or.inr hat.1),
      .release rfl (afterCall_outside n _) rfl, id, fun _ _ => Or.inr hat, nofun⟩
  | finished => nomatch hstep

/-- A step of one of the threads, each of which makes `n` calls. -/
abbrev step (n : Nat) (p : Pool ι Local (Once ι)) (c : ι × Bool) : Option (Pool ι Local (Once ι)) :=
  p.step (threadStep n) c

/-- **One step of the pool.** -/
theorem Inv.step {p p' : Pool ι Local (Once ι)} {c : ι × Bool} (h : Inv p) (hc : NoFail p c)
    (hstep : OneTimeInit.step n p c = some p') : Inv p' := by
  obtain ⟨i, ok⟩ := c
  obtain rfl : ok = true := hc
  obtain ⟨l', g', hthr, rfl⟩ := Pool.step_eq hstep
  obtain ⟨hat, hlock, hcalled, hleft, hgoin⟩ := (h.each i).step h.quiet hthr
  have howned : Owned (fun j => (Function.update p.locals i l' j).pc.inside) g'.mtx :=
    Owned.step (f := fun l : Local => l.pc.inside) h.owned hlock
  refine ⟨howned, forall_update (J := fun _ l => At l g') hat fun j hj => ?_, fun hfree => ?_⟩
  · have hout : (p.locals j).pc.inside = false := by
      refine Bool.eq_false_iff.mpr fun hin => ?_
      have hnot : (p.locals i).pc.inside = false :=
        Bool.eq_false_iff.mpr fun hi => hj (h.owned.unique hin hi)
      -- the mutex is taken, so the step was not possible
      nomatch ((h.owned j).mp hin).symm.trans (hgoin hnot).1
    exact at_of_outside hout ((h.each j).1.imp_right hcalled)
  · have hnow : l'.pc.inside = false := by
      have hself : (Function.update p.locals i l' i).pc.inside = false :=
        (hfree ▸ howned : Owned _ none).none_inside i
      rw [Function.update_self] at hself
      exact hself
    by_cases hin : (p.locals i).pc.inside = true
    · exact hleft hin hnow
    · exact absurd hnow (by rw [(hgoin (Bool.eq_false_iff.mpr hin)).2]; decide)

theorem inv_of_reach {p : Pool ι Local (Once ι)}
    (h : Reach (OneTimeInit.step n) NoFail (start ι n) p) : Inv p :=
  h.inv (inv_start n) fun _ _ _ hinv hc hstep => hinv.step hc hstep

/-- **Once.**  However many threads call however often, and in whatever order they run: `init` is
    called at most once, it has returned before any call of `one_time_init` has, and unless all
    threads have finished one of them can go on. -/
theorem one_time_init_once {p : Pool ι Local (Once ι)}
    (h : Reach (OneTimeInit.step n) NoFail (start ι n) p) :
    p.shared.begun ≤ 1 ∧
      (∀ i, 0 < (p.locals i).returned → p.shared.begun = 1 ∧ p.shared.ended = 1) ∧
      ((∃ i, (p.locals i).pc ≠ .finished) → ∃ i, (OneTimeInit.step n p (i, true)).isSome = true) := by
  have hinv := inv_of_reach h
  obtain ⟨hbegun, hended, hcalled⟩ := hinv.counts
  refine ⟨hbegun, fun i hret => ?_, ?_⟩
  · rcases (hinv.each i).1 with h0 | hc
    · omega
    · have hone := hcalled hc
      exact ⟨by omega, hone⟩
  · rintro ⟨i, hi⟩
    -- the owner, if there is one
    cases hmtx : p.shared.mtx with
    | none =>
      have hout : (p.locals i).pc.inside = false := (hmtx ▸ hinv.owned : Owned _ none).none_inside i
      refine ⟨i, ?_⟩
      rw [OneTimeInit.step, Pool.step, Option.isSome_map, threadStep]
      cases hpc : (p.locals i).pc with
      | lock =>
        dsimp only
        rw [if_pos rfl, if_pos hmtx]
        rfl
      | finished => exact absurd hpc hi
      | _ => rw [hpc] at hout; nomatch hout
    | some j =>
      have hin : (p.locals j).pc.inside = true := (hinv.owned j).mpr hmtx
      refine ⟨j, ?_⟩
      rw [OneTimeInit.step, Pool.step, Option.isSome_map, threadStep]
      cases hpc : (p.locals j).pc with
      | lock => rw [hpc] at hin; nomatch hin
      | finished => rw [hpc] at hin; nomatch hin
      | _ => rfl

/-- Two threads with two calls each, as in `main`: one waits while the other initialises. -/
theorem one_time_init_once_main : ∃ p : Pool Bool Local (Once Bool),
    (p.locals true).returned = 2 ∧ p.shared.begun = 1 ∧ p.shared.ended = 1 := by
  have hrun : (runList (OneTimeInit.step 2) NoFail (start Bool 2)
      ((List.replicate 6 (false, true)) ++ List.replicate 6 (true, true))).map
        (fun p => (p.locals true).returned) = some 2 := by decide +kernel
  obtain ⟨p, hp, hret⟩ := Reach.of_observed hrun
  exact ⟨p, hret, (one_time_init_once hp).2.1 true (by omega)⟩

/-- An error of `pthread_mutex_lock` is not noticed: then `init` may be called twice. -/
theorem twice_without_lock : ∃ p : Pool Bool Local (Once Bool),
    Reach (OneTimeInit.step 1) Any (start Bool 1) p ∧ p.shared.begun = 2 := by
  have hrun : (runList (OneTimeInit.step 1) Any (start Bool 1)
      [(false, true), (true, false), (false, true), (true, true), (false, true), (true, true)]).map
        (fun p => p.shared.begun) = some 2 := by decide +kernel
  exact Reach.of_observed hrun

end LinuxInterface.OneTimeInit
