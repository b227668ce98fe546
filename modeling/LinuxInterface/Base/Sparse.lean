/-
  Files with holes.

  A `Sparse B` is a length and a map from some of its blocks of `B` bytes to data.  A block that is
  not mapped is a hole and reads as zeros.  `write` maps every block that it touches, and what it has
  written is read back (`read_write`), so a file that has been written from one end to the other has
  no holes (`full_write`).
-/
import Mathlib.Data.List.Basic

namespace LinuxInterface

variable {B : Nat}

/-- A file in blocks of `B` bytes; the data of a block by the place in it. -/
structure Sparse (B : Nat) where
  length : Nat
  block : Nat → Option (Nat → UInt8)
  inside : ∀ k, length ≤ B * k → block k = none

namespace Sparse

/-- The byte at an offset. -/
def read (f : Sparse B) (i : Nat) : UInt8 := (f.block (i / B)).elim 0 fun data => data (i % B)

/-- All bytes of the file. -/
def contents (f : Sparse B) : List UInt8 := (List.range f.length).map f.read

/-- The block is part of the file, but not mapped. -/
def Hole (f : Sparse B) (k : Nat) : Prop := B * k < f.length ∧ f.block k = none

/-- The file has no holes. -/
def Full (f : Sparse B) : Prop := ∀ k, ¬f.Hole k

/-- The empty file. -/
def empty : Sparse B := ⟨0, fun _ => none, fun _ _ => rfl⟩

/-- What a block holds as far as the file goes, and zeros behind its end. -/
def old (f : Sparse B) (k j : Nat) : UInt8 :=
  if B * k + j < f.length then (f.block k).elim 0 fun data => data j else 0

/-- A write of `data` at `off` touches this block. -/
def Touches (off : Nat) (data : List UInt8) (B k : Nat) : Prop :=
  B * k < off + data.length ∧ off < B * (k + 1)

instance (off : Nat) (data : List UInt8) (B k : Nat) : Decidable (Touches off data B k) :=
  inferInstanceAs (Decidable (_ ∧ _))

/-- The file after `data` has been written at `off`. -/
def write (f : Sparse B) (off : Nat) (data : List UInt8) : Sparse B :=
  if data = [] then f
  else {
    length := max f.length (off + data.length)
    block := fun k =>
      if Touches off data B k then
        some fun j =>
          if off ≤ B * k + j ∧ B * k + j < off + data.length then data.getD (B * k + j - off) 0
          else f.old k j
      else (f.block k).map fun _ j => f.old k j
    inside := by
      intro k hk
      have hnot : ¬Touches off data B k := by
        intro h
        have h1 := h.1
        omega
      rw [if_neg hnot, f.inside k (by omega)]
      rfl }

section

variable {f g : Sparse B} {off : Nat} {data : List UInt8}

theorem length_contents (f : Sparse B) : f.contents.length = f.length := by
  rw [contents, List.length_map, List.length_range]

theorem getElem?_contents (f : Sparse B) {i : Nat} (h : i < f.length) :
    f.contents[i]? = some (f.read i) := by
  rw [contents, List.getElem?_map, List.getElem?_range h]
  rfl

theorem length_write (h : data ≠ []) :
    (f.write off data).length = max f.length (off + data.length) := by
  rw [write, if_neg h]

theorem block_write_of_touches {k : Nat} (h : data ≠ []) (ht : Touches off data B k) :
    (f.write off data).block k = some fun j =>
      if off ≤ B * k + j ∧ B * k + j < off + data.length then data.getD (B * k + j - off) 0
      else f.old k j := by
  rw [write, if_neg h]
  exact if_pos ht

theorem block_write_of_not_touches {k : Nat} (h : data ≠ []) (ht : ¬Touches off data B k) :
    (f.write off data).block k = (f.block k).map fun _ j => f.old k j := by
  rw [write, if_neg h]
  exact if_neg ht

/-- **What was written is read**, and everything else is as before. -/
theorem read_write (hB : 0 < B) (h : data ≠ []) (i : Nat) :
    (f.write off data).read i =
      if off ≤ i ∧ i < off + data.length then data.getD (i - off) 0
      else if i < f.length then f.read i else 0 := by
  have hi : B * (i / B) + i % B = i := Nat.div_add_mod i B
  have hlt : i < B * (i / B + 1) := Nat.lt_mul_div_succ i hB
  have hold : f.old (i / B) (i % B) = if i < f.length then f.read i else 0 := by
    rw [old, hi]
    rfl
  rw [read, ← hold]
  by_cases htouch : Touches off data B (i / B)
  · rw [block_write_of_touches h htouch, Option.elim_some]
    simp only [hi]
  · -- a byte that is written is in a block that is touched
    have hnot : ¬(off ≤ i ∧ i < off + data.length) := by
      intro hin
      apply htouch
      constructor
      · omega
      · omega
    rw [block_write_of_not_touches h htouch, if_neg hnot]
    cases hb : f.block (i / B) with
    | some d => rfl
    | none =>
      rw [old, hb]
      exact (ite_self 0).symm

/-- Data written at the end of a file. -/
theorem contents_write_end (hB : 0 < B) (h : data ≠ []) :
    (f.write f.length data).contents = f.contents ++ data := by
  have hlen : (f.write f.length data).length = f.length + data.length := by
    rw [length_write h]
    omega
  apply List.ext_getElem?
  intro i
  by_cases hi : i < f.length + data.length
  · rw [getElem?_contents _ (hlen ▸ hi), read_write hB h]
    by_cases hold : i < f.length
    · rw [if_neg fun hin => absurd hold (Nat.not_lt.mpr hin.1), if_pos hold,
        List.getElem?_append_left (by rwa [length_contents]), getElem?_contents f hold]
    · have hnew : i - f.length < data.length := by omega
      rw [if_pos ⟨Nat.not_lt.mp hold, hi⟩, List.getElem?_append_right (by rw [length_contents]; omega),
        length_contents, List.getD_eq_getElem?_getD, List.getElem?_eq_getElem hnew, Option.getD_some]
  · rw [List.getElem?_eq_none (by rw [length_contents]; omega),
      List.getElem?_eq_none (by rw [List.length_append, length_contents]; omega)]

/-- Data written at the end of a file without holes. -/
theorem full_write (hB : 0 < B) (hf : f.Full) (data : List UInt8) :
    (f.write f.length data).Full := by
  rintro k ⟨hlt, hnone⟩
  by_cases h : data = []
  · rw [write, if_pos h] at hlt hnone
    exact hf k ⟨hlt, hnone⟩
  · rw [length_write h] at hlt
    have hnot : ¬Touches f.length data B k := by
      intro htouch
      rw [block_write_of_touches h htouch] at hnone
      nomatch hnone
    rw [block_write_of_not_touches h hnot, Option.map_eq_none_iff] at hnone
    -- a block behind the end is touched, one before it was mapped
    have hend : f.length ≤ B * k := Nat.not_lt.mp fun hk => hf k ⟨hk, hnone⟩
    apply hnot
    constructor
    · omega
    · rw [Nat.mul_succ]
      omega

end

end Sparse

end LinuxInterface
