/-
  Unsigned 64-bit (`size_t`) arithmetic on `Nat`.

  A `size_t` or an address is a natural number below `2 ^ 64`; every operation reduces its
  result modulo `2 ^ 64`, as the machine does.  Each operation comes with the one equation its
  users reason with: where the exact result fits, the wrapped result IS the exact one
  (`addSz_eq`, `subSz_eq`, `mulSz_eq`).

  `toSigned` is the conversion to a signed 64-bit argument (two's complement) and `toSizeT` the one
  back.  `addSs` and `addInt` are the sums of `ssize_t` and of `int` values, which are integers.
-/
import Mathlib.Algebra.Group.Int.Defs
import Mathlib.Algebra.Group.Nat.Defs

namespace LinuxInterface

/-- `a + b` on `size_t`. -/
def addSz (a b : Nat) : Nat := (a + b) % 2 ^ 64

/-- `a - b` on `size_t` (both operands below `2 ^ 64`). -/
def subSz (a b : Nat) : Nat := (a + (2 ^ 64 - b)) % 2 ^ 64

/-- `a * b` on `size_t`. -/
def mulSz (a b : Nat) : Nat := a * b % 2 ^ 64

/-- A `size_t` passed where a signed 64-bit value is expected. -/
def toSigned (a : Nat) : Int := if a < 2 ^ 63 then (a : Int) else (a : Int) - 2 ^ 64

/-- A signed 64-bit value where a `size_t` is expected. -/
def toSizeT (n : Int) : Nat := (n % 2 ^ 64).toNat

/-- `a + b` on `ssize_t`. -/
def addSs (a b : Int) : Int := (a + b).bmod (2 ^ 64)

/-- `a + b` on `int`. -/
def addInt (a b : Int) : Int := (a + b).bmod (2 ^ 32)

theorem addSz_eq {a b : Nat} (h : a + b < 2 ^ 64) : addSz a b = a + b := Nat.mod_eq_of_lt h

theorem mulSz_eq {a b : Nat} (h : a * b < 2 ^ 64) : mulSz a b = a * b := Nat.mod_eq_of_lt h

theorem subSz_eq {a b : Nat} (hb : b ≤ a) (ha : a < 2 ^ 64) : subSz a b = a - b := by
  unfold subSz
  have hsplit : a + (2 ^ 64 - b) = (a - b) + 2 ^ 64 := by omega
  rw [hsplit, Nat.add_mod_right]
  exact Nat.mod_eq_of_lt (by omega)

theorem toSigned_of_lt {a : Nat} (h : a < 2 ^ 63) : toSigned a = a := by
  unfold toSigned
  rw [if_pos h]

/-- From `2 ^ 63` on, a `size_t` is read as a negative number. -/
theorem toSigned_neg {a : Nat} (h : 2 ^ 63 ≤ a) : toSigned a = (a : Int) - 2 ^ 64 := by
  unfold toSigned
  rw [if_neg (by omega)]

theorem toSizeT_natCast {n : Nat} (h : n < 2 ^ 64) : toSizeT n = n := by
  unfold toSizeT
  omega

theorem addSs_natCast {a b : Nat} (h : a + b < 2 ^ 63) : addSs a b = ((a + b : Nat) : Int) := by
  unfold addSs
  rw [Int.bmod_eq_of_le (by omega) (by omega), Int.natCast_add]

theorem addInt_eq {a b : Int} (hlow : -2 ^ 31 ≤ a + b) (hhigh : a + b < 2 ^ 31) : addInt a b = a + b :=
  Int.bmod_eq_of_le (by omega) (by omega)

theorem addInt_natCast {a b : Nat} (h : a + b < 2 ^ 31) : addInt a b = ((a + b : Nat) : Int) := by
  rw [addInt_eq (by omega) (by omega), Int.natCast_add]

end LinuxInterface
