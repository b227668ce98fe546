/-
  Machine words as sets of bits.

  `bits w` is the set of the positions of the bits that are set in `w`.  The operations on words are
  those on sets: `|` is the union and `& ~` the difference.
-/
import Mathlib.Data.Set.Basic

namespace LinuxInterface

variable {n : Nat}

/-- The positions of the bits that are set. -/
def bits (w : BitVec n) : Set Nat := {b | w.getLsbD b = true}

theorem mem_bits {w : BitVec n} {b : Nat} : b ∈ bits w ↔ w.getLsbD b = true := Iff.rfl

@[simp] theorem bits_zero : bits (0 : BitVec n) = ∅ := by
  ext b
  simp [mem_bits]

/-- `|` is the union, and `& ~` the difference. -/
@[simp] theorem bits_or (v w : BitVec n) : bits (v ||| w) = bits v ∪ bits w := by
  ext b
  simp [mem_bits]

@[simp] theorem bits_and_not (v w : BitVec n) : bits (v &&& ~~~w) = bits v \ bits w := by
  ext b
  rw [Set.mem_sdiff, mem_bits, mem_bits, mem_bits, BitVec.getLsbD_and, BitVec.getLsbD_not,
    Bool.and_eq_true, Bool.and_eq_true, Bool.not_eq_true', Bool.not_eq_true]
  constructor
  · rintro ⟨hv, -, hw⟩
    exact ⟨hv, hw⟩
  · rintro ⟨hv, hw⟩
    exact ⟨hv, decide_eq_true (BitVec.lt_of_getLsbD hv), hw⟩

end LinuxInterface
