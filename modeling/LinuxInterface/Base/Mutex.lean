/-
  A mutex among threads.

  `owner` is the thread that holds it, if any; `inside i` says that thread `i` is at a place of its
  program where it holds it.  `Owned` ties the two together; it is kept by every step that takes a
  free mutex, gives it back or leaves it alone (`Owned.step`), and two threads are never inside
  (`Owned.unique`).
-/
import Mathlib.Logic.Function.Basic

namespace LinuxInterface

variable {ι : Type}

/-- The threads inside are the owner. -/
def Owned (inside : ι → Bool) (owner : Option ι) : Prop := ∀ i, inside i = true ↔ owner = some i

/-- What a step of thread `i` does to the mutex; `b` and `b'` say whether it is inside before and
    after. -/
inductive LockStep (i : ι) (b b' : Bool) (owner owner' : Option ι) : Prop where
  | acquire (hfree : owner = none) (hin : b' = true) (ho : owner' = some i)
  | release (hin : b = true) (hout : b' = false) (ho : owner' = none)
  | keep (hsame : b' = b) (ho : owner' = owner)

variable {inside : ι → Bool} {owner owner' : Option ι} {i j : ι}

theorem Owned.unique (h : Owned inside owner) (hi : inside i = true) (hj : inside j = true) :
    i = j :=
  Option.some.inj (((h i).mp hi).symm.trans ((h j).mp hj))

theorem Owned.none_inside (h : Owned inside none) (i : ι) : inside i = false :=
  Bool.eq_false_iff.mpr fun hi => nomatch (h i).mp hi

theorem owned_start (h : ∀ i, inside i = false) : Owned inside none := by
  intro i
  rw [h i]
  exact ⟨nofun, nofun⟩

/-- **One step** of thread `i`, from its local state `x i` to `l'`. -/
theorem Owned.step [DecidableEq ι] {L : Type} {f : L → Bool} {x : ι → L} {l' : L}
    (h : Owned (fun j => f (x j)) owner)
    (hstep : LockStep i (f (x i)) (f l') owner owner') :
    Owned (fun j => f (Function.update x i l' j)) owner' := by
  intro j
  show f (Function.update x i l' j) = true ↔ owner' = some j
  by_cases hj : j = i
  · subst hj
    rw [Function.update_self]
    cases hstep with
    | acquire hfree hin ho => rw [hin, ho]; simp
    | release hin hout ho => rw [hout, ho]; simp
    | keep hsame ho => rw [hsame, ho]; exact h j
  · rw [Function.update_of_ne hj]
    cases hstep with
    | acquire hfree hin ho =>
      subst hfree
      have hout : f (x j) = false := h.none_inside j
      rw [ho, hout]
      simp [Ne.symm hj]
    | release hin hout ho =>
      -- the owner was `i`, so `j` was not inside
      rw [ho]
      exact ⟨fun hin' => absurd (h.unique hin' hin) hj, nofun⟩
    | keep hsame ho => rw [ho]; exact h j

end LinuxInterface
