/-
  System V semaphores.

  The values of a set are a function from semaphore numbers; `semop` carries out an array of
  operations on them, all of them or none: `none` says that the caller is blocked.  An operation
  adds its number to the value, which may not become negative; the operation 0 waits for the
  value 0.
-/
import Mathlib.Logic.Function.Basic

namespace LinuxInterface

/-- The values of the semaphores of a set. -/
abbrev SemVals := Nat → Nat

/-- `struct sembuf`, without flags. -/
structure Sembuf where
  num : Nat
  op : Int
  deriving DecidableEq

/-- One operation of the array. -/
def semopOne (vals : SemVals) (sop : Sembuf) : Option SemVals :=
  if sop.op = 0 then
    if vals sop.num = 0 then some vals else none
  else if 0 ≤ vals sop.num + sop.op then
    some (Function.update vals sop.num (vals sop.num + sop.op).toNat)
  else none

/-- The whole array. -/
def semop (vals : SemVals) (sops : List Sembuf) : Option SemVals := sops.foldlM semopOne vals

/-- `semctl` with `SETVAL`. -/
def setval (vals : SemVals) (num val : Nat) : SemVals := Function.update vals num val

variable {vals vals' : SemVals} {num : Nat}

@[simp] theorem semop_singleton (sop : Sembuf) : semop vals [sop] = semopOne vals sop := by
  simp [semop]

/-- Taking one. -/
theorem semop_take : semop vals [⟨num, -1⟩] = some vals' ↔
    0 < vals num ∧ vals' = Function.update vals num (vals num - 1) := by
  rw [semop_singleton, semopOne, if_neg (show ¬ (-1 : Int) = 0 by decide)]
  by_cases h : 0 < vals num
  · have hge : (0 : Int) ≤ vals num + -1 := by omega
    have hval : ((vals num : Int) + -1).toNat = vals num - 1 := by omega
    rw [if_pos hge, hval, Option.some.injEq]
    exact ⟨fun he => ⟨h, he.symm⟩, fun he => he.2.symm⟩
  · have hlt : ¬ (0 : Int) ≤ vals num + -1 := by omega
    rw [if_neg hlt]
    exact ⟨fun he => (nomatch he), fun he => absurd he.1 h⟩

/-- Giving one back, which never blocks. -/
theorem semop_give : semop vals [⟨num, 1⟩] = some (Function.update vals num (vals num + 1)) := by
  have hge : (0 : Int) ≤ vals num + 1 := by omega
  have hval : ((vals num : Int) + 1).toNat = vals num + 1 := by omega
  rw [semop_singleton, semopOne, if_neg (show ¬ (1 : Int) = 0 by decide), if_pos hge, hval]

/-- Whatever the operation, its number is added to the value. -/
theorem semop_value {op : Int} (h : semop vals [⟨num, op⟩] = some vals') :
    (vals' num : Int) = vals num + op := by
  rw [semop_singleton, semopOne] at h
  dsimp only at h
  split at h
  · next hop =>
    split at h
    · cases h
      omega
    · nomatch h
  · split at h
    · next hge =>
      cases h
      rw [Function.update_self]
      omega
    · nomatch h

end LinuxInterface
