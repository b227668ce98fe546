/-
  Threads that take atomic steps on a shared state, in any order.

  Every thread `i : ι` has a local state (its program counter and its variables).  `thr i a l g` is
  what thread `i` does on the label `a` with its local state `l` and the shared state `g`: the
  label is what the step does not decide itself, such as the answer of the kernel.  A `Pool` is
  all the local states together with the shared one; in a step of the pool one thread, any of
  them, takes one step.

  * `Pool.step_eq` says what a step of the pool is;
  * `forall_update` splits a property of every thread into the thread that took the step (its own
    step must keep it) and the others (that step must not destroy it), and `exists_update` keeps
    what some other thread has;
  * `sum_update_of_mem` and `sum_update_of_not_mem` count over threads.
-/
import LinuxInterface.Base.Reach
import Mathlib.Algebra.BigOperators.Group.Finset.Basic

namespace LinuxInterface

/-- The local states of all threads, and the shared state. -/
structure Pool (ι L G : Type) where
  locals : ι → L
  shared : G

variable {ι L G α : Type} [DecidableEq ι] {thr : ι → α → L → G → Option (L × G)}
  {p p' : Pool ι L G} {x : ι → L} {i : ι} {l' : L}

/-- Thread `i` takes a step. -/
def Pool.step (thr : ι → α → L → G → Option (L × G)) (p : Pool ι L G) (ia : ι × α) :
    Option (Pool ι L G) :=
  (thr ia.1 ia.2 (p.locals ia.1) p.shared).map fun lg =>
    ⟨Function.update p.locals ia.1 lg.1, lg.2⟩

/-- A step of the pool is a step of one thread, and the others stand still. -/
theorem Pool.step_eq {ia : ι × α} (h : p.step thr ia = some p') :
    ∃ l' g', thr ia.1 ia.2 (p.locals ia.1) p.shared = some (l', g') ∧
      p' = ⟨Function.update p.locals ia.1 l', g'⟩ := by
  obtain ⟨⟨l', g'⟩, hthr, hp'⟩ := Option.map_eq_some_iff.mp h
  exact ⟨l', g', hthr, hp'.symm⟩

/-- Own step and others. -/
theorem forall_update {J : ι → L → Prop} (hown : J i l') (hother : ∀ j, j ≠ i → J j (x j)) :
    ∀ j, J j (Function.update x i l' j) := by
  intro j
  by_cases hj : j = i
  · subst hj
    rw [Function.update_self]
    exact hown
  · rw [Function.update_of_ne hj]
    exact hother j hj

/-- A thread that is somewhere and did not take the step still is. -/
theorem exists_update {J : L → Prop} (h : ∃ j, J (x j)) (hi : ¬ J (x i)) :
    ∃ j, J (Function.update x i l' j) := by
  obtain ⟨j, hj⟩ := h
  have hne : j ≠ i := by
    rintro rfl
    exact hi hj
  refine ⟨j, ?_⟩
  rw [Function.update_of_ne hne]
  exact hj

/-- The thread that took the step is among those counted. -/
theorem sum_update_of_mem {M : Type} [AddCommMonoid M] {t : Finset ι} (f : ι → L → M) (x : ι → L)
    (l' : L) (hi : i ∈ t) :
    (∑ j ∈ t, f j (Function.update x i l' j)) + f i (x i) = (∑ j ∈ t, f j (x j)) + f i l' := by
  have hrest : (∑ j ∈ t.erase i, f j (Function.update x i l' j)) = ∑ j ∈ t.erase i, f j (x j) := by
    refine Finset.sum_congr rfl fun j hj => ?_
    rw [Function.update_of_ne (Finset.ne_of_mem_erase hj)]
  rw [← Finset.sum_erase_add t _ hi, hrest, Function.update_self,
    ← Finset.sum_erase_add t (fun j => f j (x j)) hi]
  exact add_right_comm _ _ _

/-- It is not. -/
theorem sum_update_of_not_mem {t : Finset ι} (f : ι → L → Nat) (x : ι → L) (l' : L) (hi : i ∉ t) :
    (∑ j ∈ t, f j (Function.update x i l' j)) = ∑ j ∈ t, f j (x j) := by
  refine Finset.sum_congr rfl fun j hj => ?_
  have hne : j ≠ i := fun h => hi (h ▸ hj)
  rw [Function.update_of_ne hne]

end LinuxInterface
