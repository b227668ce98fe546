/-
  A file and the descriptor it is open on.

  An `OpenFile` is the bytes of the file and the offset of the descriptor.  `put` writes at the
  offset and `rest` is what there is to read from it.  The one law that a program which moves data
  piece by piece is verified with: two writes one behind the other are one write of both pieces
  (`put_put`), and two reads are one read (`skip_skip`).

  How much of a request is carried out is up to the kernel.  `Writes` and `Reads` are kernels with
  their promise: never more than was asked for or is there, and never an offset that is not an
  `off_t`.
-/
import Mathlib.Algebra.Group.Nat.Defs
import Mathlib.Data.List.Basic

namespace LinuxInterface

/-- The bytes of a file after `data` has been written at `offset`.  A gap before the data reads as
    zeros; writing nothing changes nothing. -/
def writeAt (bytes : List UInt8) (offset : Nat) (data : List UInt8) : List UInt8 :=
  if data = [] then bytes
  else bytes.take offset ++ List.replicate (offset - bytes.length) 0 ++ data ++
    bytes.drop (offset + data.length)

@[simp] theorem writeAt_nil (bytes : List UInt8) (offset : Nat) : writeAt bytes offset [] = bytes :=
  if_pos rfl

/-- Two texts written one behind the other. -/
theorem writeAt_append (bytes : List UInt8) (offset : Nat) (d e : List UInt8) :
    writeAt (writeAt bytes offset d) (offset + d.length) e = writeAt bytes offset (d ++ e) := by
  by_cases hd : d = []
  · subst hd
    simp
  by_cases he : e = []
  · subst he
    simp
  -- what stands before the data is as long as the offset says
  have hlen : (bytes.take offset ++ List.replicate (offset - bytes.length) (0 : UInt8)).length =
      offset := by
    rw [List.length_append, List.length_take, List.length_replicate]
    omega
  have hde : d ++ e ≠ [] := by simp [hd]
  unfold writeAt
  rw [if_neg hd, if_neg he, if_neg hde]
  generalize bytes.take offset ++ List.replicate (offset - bytes.length) (0 : UInt8) = p at hlen
  have hpd : (p ++ d).length = offset + d.length := by rw [List.length_append, hlen]
  have htake : (p ++ d ++ bytes.drop (offset + d.length)).take (offset + d.length) = p ++ d := by
    rw [← hpd, List.take_left]
  have hgap : offset + d.length - (p ++ d ++ bytes.drop (offset + d.length)).length = 0 := by
    rw [List.length_append, hpd]
    omega
  have hdrop : (p ++ d ++ bytes.drop (offset + d.length)).drop (offset + d.length + e.length) =
      bytes.drop (offset + (d ++ e).length) := by
    rw [← hpd, ← List.drop_drop, List.drop_left, List.drop_drop, hpd, List.length_append,
      Nat.add_assoc]
  rw [htake, hgap, hdrop]
  simp

/-- A file, and the offset of the descriptor it is open on. -/
structure OpenFile where
  bytes : List UInt8
  offset : Nat
  deriving DecidableEq

namespace OpenFile

variable (f : OpenFile)

/-- Write `data` at the offset and move that behind it. -/
def put (data : List UInt8) : OpenFile :=
  ⟨writeAt f.bytes f.offset data, f.offset + data.length⟩

/-- What there is to read from the offset on. -/
def rest : List UInt8 := f.bytes.drop f.offset

/-- Move the offset on by `k` bytes. -/
def skip (k : Nat) : OpenFile := { f with offset := f.offset + k }

@[simp] theorem put_nil : f.put [] = f := by simp [put]

@[simp] theorem put_offset (d : List UInt8) : (f.put d).offset = f.offset + d.length := rfl

theorem put_put (d e : List UInt8) : (f.put d).put e = f.put (d ++ e) := by
  unfold put
  rw [writeAt_append, List.length_append, Nat.add_assoc]

@[simp] theorem skip_zero : f.skip 0 = f := rfl

theorem skip_skip (j k : Nat) : (f.skip j).skip k = f.skip (j + k) := by
  unfold skip
  rw [Nat.add_assoc]

@[simp] theorem rest_skip (k : Nat) : (f.skip k).rest = f.rest.drop k := by
  unfold rest skip
  rw [List.drop_drop]

theorem put_eq_self_iff {f : OpenFile} {d : List UInt8} : f.put d = f ↔ d = [] := by
  constructor
  · intro h
    have hoff : f.offset + d.length = f.offset := congrArg OpenFile.offset h
    exact List.length_eq_zero_iff.mp (by omega)
  · rintro rfl
    exact f.put_nil

/-- Different data of one length make different files. -/
theorem put_inj {f : OpenFile} {d e : List UInt8} (hlen : d.length = e.length)
    (h : f.put d = f.put e) : d = e := by
  by_cases hd : d = []
  · subst hd
    exact (List.length_eq_zero_iff.mp hlen.symm).symm
  · have he : e ≠ [] := by
      rintro rfl
      exact hd (List.length_eq_zero_iff.mp hlen)
    have hbytes : writeAt f.bytes f.offset d = writeAt f.bytes f.offset e := congrArg OpenFile.bytes h
    unfold writeAt at hbytes
    rw [if_neg hd, if_neg he, hlen, List.append_cancel_right_eq, List.append_cancel_left_eq] at hbytes
    exact hbytes

theorem skip_eq_self_iff {f : OpenFile} {k : Nat} : f.skip k = f ↔ k = 0 := by
  constructor
  · intro h
    have hoff : f.offset + k = f.offset := congrArg OpenFile.offset h
    omega
  · rintro rfl
    exact f.skip_zero

/-- A file that has been written from its beginning. -/
theorem put_empty (d : List UInt8) : (OpenFile.mk [] 0).put d = ⟨d, d.length⟩ := by
  by_cases hd : d = []
  · subst hd
    rfl
  · simp [put, writeAt, hd]

end OpenFile

/-- A kernel's answers to `write`: to the `i`-th call, on the file `f`, with `n` bytes to write. -/
structure Writes where
  answer : Nat → OpenFile → Nat → Option Nat
  le : ∀ {i f n k}, answer i f n = some k → k ≤ n
  offset : ∀ {i f n k}, answer i f n = some k → f.offset + k < 2 ^ 63

/-- A kernel's answers to `read`: to the `i`-th call, on the file `f`, with room for `n` bytes. -/
structure Reads where
  answer : Nat → OpenFile → Nat → Option Nat
  le : ∀ {i f n k}, answer i f n = some k → k ≤ n
  there : ∀ {i f n k}, answer i f n = some k → k ≤ f.rest.length
  offset : ∀ {i f n k}, answer i f n = some k → f.offset + k < 2 ^ 63

/-- `write`: the count, or `-1`, and the file. -/
def Writes.write (w : Writes) (i : Nat) (f : OpenFile) (buf : List UInt8) : Int × OpenFile :=
  match w.answer i f buf.length with
  | none => (-1, f)
  | some k => ((k : Int), f.put (buf.take k))

/-- `read`: the count, or `-1`, the buffer and the file. -/
def Reads.read (r : Reads) (i : Nat) (f : OpenFile) (buf : List UInt8) :
    Int × List UInt8 × OpenFile :=
  match r.answer i f buf.length with
  | none => (-1, buf, f)
  | some k => ((k : Int), f.rest.take k ++ buf.drop k, f.skip k)

/-! ## Kernels that follow a rule

`cap i n` is what the `i`-th call is allowed to move of the `n` bytes asked for; `none` lets the
call fail. -/

/-- As much as `most` allows, as long as the offset stays an `off_t`. -/
def moveUpTo (most : Option Nat) (f : OpenFile) (n : Nat) : Option Nat :=
  most.bind fun m => if f.offset + min m n < 2 ^ 63 then some (min m n) else none

theorem moveUpTo_some {most : Option Nat} {f : OpenFile} {n k : Nat}
    (h : moveUpTo most f n = some k) : k ≤ n ∧ f.offset + k < 2 ^ 63 := by
  obtain ⟨m, hm, h⟩ := Option.bind_eq_some_iff.mp h
  split at h
  · next hlt =>
    rw [← Option.some.inj h]
    exact ⟨Nat.min_le_right m n, hlt⟩
  · nomatch h

def Writes.upTo (cap : Nat → Nat → Option Nat) : Writes where
  answer := fun i f n => moveUpTo (cap i n) f n
  le := fun h => (moveUpTo_some h).1
  offset := fun h => (moveUpTo_some h).2

def Reads.upTo (cap : Nat → Nat → Option Nat) : Reads where
  answer := fun i f n => moveUpTo (cap i n) f (min n f.rest.length)
  le := fun h => Nat.le_trans (moveUpTo_some h).1 (Nat.min_le_left _ _)
  there := fun h => Nat.le_trans (moveUpTo_some h).1 (Nat.min_le_right _ _)
  offset := fun h => (moveUpTo_some h).2

/-- A regular file that takes every write in full, as far as offsets go. -/
def Writes.regular : Writes := Writes.upTo fun _ n => some n

/-- A regular file that gives whatever is asked for and there. -/
def Reads.regular : Reads := Reads.upTo fun _ n => some n

theorem Reads.regular_answer {f : OpenFile} (h : f.offset + f.rest.length < 2 ^ 63) (i n : Nat) :
    Reads.regular.answer i f n = some (min n f.rest.length) := by
  have hmin : min n (min n f.rest.length) = min n f.rest.length := by omega
  have hlt : f.offset + min n f.rest.length < 2 ^ 63 := by omega
  calc Reads.regular.answer i f n
      = if f.offset + min n (min n f.rest.length) < 2 ^ 63 then
          some (min n (min n f.rest.length)) else none := rfl
    _ = some (min n f.rest.length) := by rw [hmin, if_pos hlt]

end LinuxInterface
