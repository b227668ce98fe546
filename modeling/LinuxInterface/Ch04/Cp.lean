/-
  ch04/2_cp.c: `copy_file_with_holes`.

  1. **The program** — what `fread` returns is written at once, until it returns nothing.

  2. **Bytes and holes** — the loop has always copied what it has read and left out nothing
     (`copied_step`).  So the copy has the length and the bytes of the source, and no holes; it has the
     holes of the source if and only if the source has none (`copy_holes_iff`).
-/
import LinuxInterface.Base.Loop
import LinuxInterface.Base.Scanf
import LinuxInterface.Base.Sparse

namespace LinuxInterface.Cp

open LinuxInterface

/-! ## The program -/

def BUFFER_SIZE : Nat := 4096

/-- A file whose blocks are as large as the buffer. -/
abbrev File := Sparse BUFFER_SIZE

/-- `fread(buffer, 1, sizeof(buffer), source_file)` at the offset `pos`. -/
def fread (source : File) (pos : Nat) : List UInt8 := (source.contents.drop pos).take BUFFER_SIZE

/-- The offsets of the two streams, and the file that is written. -/
structure State where
  sourcePos : Nat
  target : File
  targetPos : Nat

/-- A round of the loop. -/
def copyBlock (source : File) (s : State) : Turn State File :=
  let buffer := fread source s.sourcePos
  if 0 < buffer.length then
    .again ⟨s.sourcePos + buffer.length, s.target.write s.targetPos buffer,
      s.targetPos + buffer.length⟩
  else .leave s.target

/-- The end of a call: the program exits with a message, to which the text of `errno` is added, or
    the target is what the loop left. -/
inductive Ended where
  | exit (message : List UInt8)
  | returned (target : File)

/-- `copy_file_with_holes(source_path, target_path)`, for the file the source path names, if it can
    be opened, and whether the target can be.  `none` says that the loop did not end. -/
def copyFileWithHoles (source : Option File) (targetOpens : Bool) : Option Ended :=
  match source with
  | none => some (.exit (ascii "Error opening source file: ".toList))
  | some source =>
    if targetOpens then
      -- `"wb"`: the target is empty
      (loopN (copyBlock source) (source.length + 1) ⟨0, Sparse.empty, 0⟩).map .returned
    else some (.exit (ascii "Error opening target file: ".toList))

/-! ## Bytes and holes -/

/-- What has been read is in the target, without holes. -/
structure Copied (source : File) (s : State) : Prop where
  pos_le : s.sourcePos ≤ source.length
  targetPos_eq : s.targetPos = s.sourcePos
  length_eq : s.target.length = s.sourcePos
  contents_eq : s.target.contents = source.contents.take s.sourcePos
  full : s.target.Full

section

variable {source : File} {s s' : State}

theorem BUFFER_SIZE_pos : 0 < BUFFER_SIZE := by decide

theorem length_fread (source : File) (pos : Nat) :
    (fread source pos).length = min BUFFER_SIZE (source.length - pos) := by
  rw [fread, List.length_take, List.length_drop, Sparse.length_contents]

theorem copied_start (source : File) : Copied source ⟨0, Sparse.empty, 0⟩ :=
  ⟨Nat.zero_le _, rfl, rfl, rfl, fun _ h => Nat.not_lt_zero _ h.1⟩

/-- A round that goes on has read something, … -/
theorem copyBlock_again_iff : copyBlock source s = .again s' ↔
    0 < (fread source s.sourcePos).length ∧
      s' = ⟨s.sourcePos + (fread source s.sourcePos).length,
        s.target.write s.targetPos (fread source s.sourcePos),
        s.targetPos + (fread source s.sourcePos).length⟩ := by
  by_cases hpos : 0 < (fread source s.sourcePos).length
  · rw [copyBlock, if_pos hpos, Turn.again.injEq]
    exact ⟨fun h => ⟨hpos, h.symm⟩, fun h => h.2.symm⟩
  · rw [copyBlock, if_neg hpos]
    exact ⟨fun h => (nomatch h), fun h => absurd h.1 hpos⟩

/-- … and one that does not has reached the end. -/
theorem copyBlock_leave_iff {target : File} : copyBlock source s = .leave target ↔
    ¬0 < (fread source s.sourcePos).length ∧ target = s.target := by
  by_cases hpos : 0 < (fread source s.sourcePos).length
  · rw [copyBlock, if_pos hpos]
    exact ⟨fun h => (nomatch h), fun h => absurd hpos h.1⟩
  · rw [copyBlock, if_neg hpos, Turn.leave.injEq]
    exact ⟨fun h => ⟨hpos, h.symm⟩, fun h => h.2.symm⟩

/-- **One round.** -/
theorem copied_step (h : Copied source s) (hs : copyBlock source s = .again s') :
    Copied source s' ∧ source.length - s'.sourcePos < source.length - s.sourcePos := by
  obtain ⟨hpos, rfl⟩ := copyBlock_again_iff.mp hs
  have hne : fread source s.sourcePos ≠ [] := List.length_pos_iff.mp hpos
  have hlen := length_fread source s.sourcePos
  have hpos_le := h.pos_le
  have hend : s.targetPos = s.target.length := h.targetPos_eq.trans h.length_eq.symm
  refine ⟨⟨?_, ?_, ?_, ?_, ?_⟩, ?_⟩
  · show s.sourcePos + (fread source s.sourcePos).length ≤ source.length
    omega
  · show s.targetPos + _ = s.sourcePos + _
    rw [h.targetPos_eq]
  · show (s.target.write s.targetPos _).length = s.sourcePos + _
    rw [Sparse.length_write hne, h.length_eq, h.targetPos_eq]
    omega
  · show (s.target.write s.targetPos _).contents = source.contents.take (s.sourcePos + _)
    rw [hend, Sparse.contents_write_end BUFFER_SIZE_pos hne, h.contents_eq, List.take_add]
    congr 1
    rw [fread, List.take_eq_take_iff, List.length_take]
    omega
  · show (s.target.write s.targetPos _).Full
    rw [hend]
    exact Sparse.full_write BUFFER_SIZE_pos h.full _
  · show source.length - (s.sourcePos + (fread source s.sourcePos).length) < _
    omega

/-- **The copy** has the contents of the source and no holes. -/
theorem copy_spec (source : File) :
    ∃ target, copyFileWithHoles (some source) true = some (.returned target) ∧
      target.length = source.length ∧ target.contents = source.contents ∧ target.Full := by
  obtain ⟨target, s, hloop, hcopied, hleave⟩ := loopN_total (fun _ _ => copied_step)
    (copied_start source) (Nat.lt_succ_of_le (Nat.sub_le source.length 0))
  obtain ⟨hend, rfl⟩ := copyBlock_leave_iff.mp hleave
  have hlen := length_fread source s.sourcePos
  have hbuffer := BUFFER_SIZE_pos
  have hpos_le := hcopied.pos_le
  have hpos : s.sourcePos = source.length := by omega
  refine ⟨s.target, congrArg (Option.map Ended.returned) hloop, ?_, ?_, hcopied.full⟩
  · rw [hcopied.length_eq, hpos]
  · rw [hcopied.contents_eq, hpos, ← Sparse.length_contents, List.take_length]

end

/-- **The holes** of the source are kept if and only if there are none. -/
theorem copy_holes_iff (source : File) :
    ∃ target, copyFileWithHoles (some source) true = some (.returned target) ∧
      target.length = source.length ∧ (∀ i < source.length, target.read i = source.read i) ∧
      ((∀ k, source.Hole k → target.Hole k) ↔ ∀ k, ¬source.Hole k) := by
  obtain ⟨target, hcopy, hlen, hcontents, hfull⟩ := copy_spec source
  refine ⟨target, hcopy, hlen, ?_, ?_⟩
  · intro i hi
    have htarget := target.getElem?_contents (hlen ▸ hi)
    rw [hcontents, source.getElem?_contents hi] at htarget
    exact (Option.some.inj htarget).symm
  · constructor
    · intro h k hk
      exact hfull k (h k hk)
    · intro h k hk
      exact absurd hk (h k)

/-- A file that is one hole. -/
def oneHole : File := ⟨BUFFER_SIZE, fun _ => none, fun _ _ => rfl⟩

/-- **The hole is filled** with zeros. -/
theorem copy_fills_hole :
    oneHole.Hole 0 ∧ ∃ target, copyFileWithHoles (some oneHole) true = some (.returned target) ∧
      ¬target.Hole 0 := by
  obtain ⟨target, hcopy, -, -, hfull⟩ := copy_spec oneHole
  exact ⟨⟨by decide, rfl⟩, target, hcopy, hfull 0⟩

end LinuxInterface.Cp
