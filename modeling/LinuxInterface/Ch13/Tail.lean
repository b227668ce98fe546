/-
  ch13/5_tail.c: `tail`, which prints the last lines of a file.

  1. **The program** — `tail` goes backwards through the file in blocks and counts newlines until
     it has seen one more than the lines it is asked for (`scanBody`, with the inner loop
     `countBack`); then it copies from there to the end (`copyBody`).  The size of the blocks is a
     parameter, and so is what each system call does.

  2. **Every run ends** — whatever the system calls do, and an error message other than that of
     `write` says that nothing has been printed (`tail_ends`).

  3. **The scan** — a block is `backTo` continued over the bytes of the block (`countBack_spec`), so
     the loop arrives at `backTo` for the whole file (`scan_spec`), with any size of blocks.

  4. **What is printed** — the file from there on (`tail_prints_from_backTo`), which is the last
     lines if the file ends in a newline.  The newline that would end an unfinished last line is
     missing from the count: such a file has one line too many printed (`tail_lastLines_iff`).
-/
import LinuxInterface.Base.Lines
import LinuxInterface.Base.Loop
import LinuxInterface.Base.OpenFile
import LinuxInterface.Base.SizeT
import LinuxInterface.Base.Stdio

namespace LinuxInterface.Tail

open LinuxInterface

/-! ## The program -/

def BUFFER_SIZE : Nat := 4096

/-- What the system calls do: the `i`-th one may move that many of the `n` bytes it is asked to, or
    fails. -/
abbrev Kernel := Nat → Nat → Option Nat

/-- No call fails and none is short. -/
def Kernel.full : Kernel := fun _ n => some n

/-- The file, standard output, and the number of system calls made. -/
structure Io where
  fd : OpenFile
  out : List UInt8
  calls : Nat
  deriving DecidableEq

namespace Io

variable (k : Kernel) (io : Io)

def lseek (pos : Nat) : Option Io :=
  (k io.calls 0).map fun _ => { io with fd := { io.fd with offset := pos }, calls := io.calls + 1 }

def read (n : Nat) : Option (List UInt8 × Io) :=
  (k io.calls n).map fun m =>
    let buffer := io.fd.rest.take (min m n)
    (buffer, { io with fd := io.fd.skip buffer.length, calls := io.calls + 1 })

def write (data : List UInt8) : Option Io :=
  (k io.calls data.length).map fun m =>
    { io with out := io.out ++ data.take m, calls := io.calls + 1 }

end Io

/-- How `tail` comes back: it returns, or `perror(message)` and `exit(EXIT_FAILURE)`. -/
inductive Exit where
  | done
  | failure (message : String)
  deriving DecidableEq

/-- The variables of the backward scan. -/
structure Scan where
  pos : Nat
  lineCount : Int
  io : Io
  deriving DecidableEq

/-- The inner loop over the bytes of the buffer from the last to the first: at `c`, the bytes left
    are those before it, so their number is the index of `c`. -/
def countBack (numLines : Int) : List UInt8 → Nat × Int → Nat × Int
  | [], st => st
  | c :: left, (pos, lineCount) =>
    if c = LF then
      if addInt lineCount 1 > numLines then (pos + (left.length + 1), addInt lineCount 1)
      else countBack numLines left (pos, addInt lineCount 1)
    else countBack numLines left (pos, lineCount)

section

variable (k : Kernel) (bufferSize : Nat) (numLines : Int)

/-- `to_read`. -/
def toRead (pos : Nat) : Nat := if pos > bufferSize then bufferSize else pos

/-- One round of the backward scan. -/
def scanBody (s : Scan) : Turn Scan (Except (String × Io) Scan) :=
  if 0 < s.pos ∧ s.lineCount ≤ numLines then
    let pos := s.pos - toRead bufferSize s.pos
    match s.io.lseek k pos with
    | none => .leave (.error ("lseek", s.io))
    | some io =>
      match io.read k (toRead bufferSize s.pos) with
      | none => .leave (.error ("read", io))
      | some (buffer, io) =>
        match countBack numLines buffer.reverse (pos, s.lineCount) with
        | (pos, lineCount) => .again ⟨pos, lineCount, io⟩
  else .leave (.ok s)

/-- The scan.  Every round but the last two moves `pos` back. -/
def scan (s : Scan) : Option (Except (String × Io) Scan) :=
  loopN (scanBody k bufferSize numLines) (s.pos + 2) s

/-- One round of the copy loop.  A `read` that fails ends it like the end of the file. -/
def copyBody (io : Io) : Turn Io (Exit × Io) :=
  match io.read k bufferSize with
  | none => .leave (.done, io)
  | some (buffer, io) =>
    if buffer = [] then .leave (.done, io)
    else
      match io.write k buffer with
      | none => .leave (.failure "write", io)
      | some io => .again io

def copy (io : Io) : Option (Exit × Io) := loopN (copyBody k bufferSize) (io.fd.rest.length + 1) io

/-- What `tail` does when the scan is over. -/
def print : Except (String × Io) Scan → Option (Exit × Io)
  | .error (message, io) => some (.failure message, io)
  | .ok s =>
    match s.io.lseek k s.pos with
    | none => some (.failure "lseek", s.io)
    | some io => copy k bufferSize io

def tail (io : Io) : Option (Exit × Io) :=
  match io.lseek k io.fd.bytes.length with
  | none => some (.failure "lseek", io)
  | some io₁ =>
    (scan k bufferSize numLines ⟨io.fd.bytes.length, 0, io₁⟩).bind (print k bufferSize)

end

/-! ## Every run ends -/

section

variable {k : Kernel} {bufferSize : Nat} {numLines : Int}

theorem Io.lseek_some {io io' : Io} {pos : Nat} (h : io.lseek k pos = some io') :
    io'.fd = ⟨io.fd.bytes, pos⟩ ∧ io'.out = io.out := by
  obtain ⟨m, -, rfl⟩ := Option.map_eq_some_iff.mp h
  exact ⟨rfl, rfl⟩

theorem Io.read_some {io io' : Io} {n : Nat} {buffer : List UInt8}
    (h : io.read k n = some (buffer, io')) :
    io'.fd = io.fd.skip buffer.length ∧ io'.out = io.out ∧ buffer <+: io.fd.rest := by
  obtain ⟨m, -, hm⟩ := Option.map_eq_some_iff.mp h
  obtain ⟨rfl, rfl⟩ := Prod.mk.inj hm
  exact ⟨rfl, rfl, List.take_prefix _ _⟩

theorem Io.write_some {io io' : Io} {data : List UInt8} (h : io.write k data = some io') :
    io'.fd = io.fd := by
  obtain ⟨m, -, rfl⟩ := Option.map_eq_some_iff.mp h
  rfl

/-- A round of the scan: the scan is over, a call fails, or a block is read. -/
theorem scanBody_cases (k : Kernel) (bufferSize : Nat) (numLines : Int) (s : Scan) :
    (¬(0 < s.pos ∧ s.lineCount ≤ numLines) ∧
        scanBody k bufferSize numLines s = .leave (.ok s)) ∨
      ((∃ i m, k i m = none) ∧ ∃ message io,
        scanBody k bufferSize numLines s = .leave (.error (message, io)) ∧
        (message = "lseek" ∨ message = "read") ∧ io.out = s.io.out) ∨
      ((0 < s.pos ∧ s.lineCount ≤ numLines) ∧ ∃ io io' buffer pos lineCount,
        s.io.lseek k (s.pos - toRead bufferSize s.pos) = some io ∧
        io.read k (toRead bufferSize s.pos) = some (buffer, io') ∧
        countBack numLines buffer.reverse (s.pos - toRead bufferSize s.pos, s.lineCount) =
          (pos, lineCount) ∧
        scanBody k bufferSize numLines s = .again ⟨pos, lineCount, io'⟩) := by
  unfold scanBody
  by_cases hcond : 0 < s.pos ∧ s.lineCount ≤ numLines
  · right
    rw [if_pos hcond]
    cases hl : s.io.lseek k (s.pos - toRead bufferSize s.pos) with
    | none =>
      exact .inl ⟨⟨_, _, Option.map_eq_none_iff.mp hl⟩, "lseek", s.io, by simp [hl], .inl rfl, rfl⟩
    | some io =>
      cases hr : io.read k (toRead bufferSize s.pos) with
      | none =>
        exact .inl ⟨⟨_, _, Option.map_eq_none_iff.mp hr⟩, "read", io, by simp [hl, hr], .inr rfl,
          (Io.lseek_some hl).2⟩
      | some p => exact .inr ⟨hcond, io, p.2, p.1, _, _, rfl, hr, rfl, by simp [hl, hr]⟩
  · exact .inl ⟨hcond, if_neg hcond⟩

theorem scanBody_again {s s' : Scan} (h : scanBody k bufferSize numLines s = .again s') :
    (0 < s.pos ∧ s.lineCount ≤ numLines) ∧ ∃ io buffer,
      s.io.lseek k (s.pos - toRead bufferSize s.pos) = some io ∧
      io.read k (toRead bufferSize s.pos) = some (buffer, s'.io) ∧
      countBack numLines buffer.reverse (s.pos - toRead bufferSize s.pos, s.lineCount) =
        (s'.pos, s'.lineCount) := by
  rcases scanBody_cases k bufferSize numLines s with
    ⟨-, hstep⟩ | ⟨-, message, io, hstep, -⟩ | ⟨hcond, io, io', buffer, pos, lc, hl, hr, hc, hstep⟩
  · nomatch h.symm.trans hstep
  · nomatch h.symm.trans hstep
  · obtain rfl := Turn.again.inj (h.symm.trans hstep)
    exact ⟨hcond, io, buffer, hl, hr, hc⟩

theorem scanBody_leave {s : Scan} {r : Except (String × Io) Scan}
    (h : scanBody k bufferSize numLines s = .leave r) :
    (¬(0 < s.pos ∧ s.lineCount ≤ numLines) ∧ r = .ok s) ∨
      (∃ i m, k i m = none) ∧ ∃ message io, r = .error (message, io) ∧
        (message = "lseek" ∨ message = "read") ∧ io.out = s.io.out := by
  rcases scanBody_cases k bufferSize numLines s with
    ⟨hcond, hstep⟩ | ⟨hfail, message, io, hstep, hmessage⟩ | ⟨-, _, _, _, _, _, -, -, -, hstep⟩
  · exact .inl ⟨hcond, Turn.leave.inj (h.symm.trans hstep)⟩
  · exact .inr ⟨hfail, message, io, Turn.leave.inj (h.symm.trans hstep), hmessage⟩
  · nomatch h.symm.trans hstep

theorem countBack_stop (numLines : Int) (back : List UInt8) : ∀ (pos : Nat) (lineCount : Int),
    numLines < (countBack numLines back (pos, lineCount)).2 ∨
      (countBack numLines back (pos, lineCount)).1 = pos := by
  induction back with
  | nil => exact fun _ _ => .inr rfl
  | cons c left ih =>
    intro pos lineCount
    rw [countBack]
    split
    · split
      · next hstop => exact .inl hstop
      · exact ih _ _
    · exact ih _ _

/-- What is left of the scan: nothing once the count is past `numLines`. -/
def Scan.left (numLines : Int) (s : Scan) : Nat := if s.lineCount ≤ numLines then s.pos + 1 else 0

theorem Scan.left_lt (numLines : Int) (s : Scan) : s.left numLines < s.pos + 2 := by
  unfold Scan.left
  split <;> omega

theorem toRead_pos {pos : Nat} (hb : 0 < bufferSize) (hpos : 0 < pos) :
    0 < toRead bufferSize pos := by
  unfold toRead
  split <;> omega

theorem toRead_le (bufferSize pos : Nat) : toRead bufferSize pos ≤ pos := by
  unfold toRead
  split <;> omega

theorem scanBody_left {s s' : Scan} (hb : 0 < bufferSize)
    (h : scanBody k bufferSize numLines s = .again s') : s'.left numLines < s.left numLines := by
  obtain ⟨⟨hpos, hcount⟩, io, buffer, -, -, hback⟩ := scanBody_again h
  have hstep := toRead_pos hb hpos
  have hstop := countBack_stop numLines buffer.reverse (s.pos - toRead bufferSize s.pos) s.lineCount
  rw [hback] at hstop
  have hs : s.left numLines = s.pos + 1 := if_pos hcount
  unfold Scan.left at hs ⊢
  split <;> omega

/-- The scan ends, and has printed nothing. -/
theorem scan_ends (hb : 0 < bufferSize) (s : Scan) :
    (∃ s', scan k bufferSize numLines s = some (.ok s') ∧ s'.io.out = s.io.out) ∨
      ∃ message io, scan k bufferSize numLines s = some (.error (message, io)) ∧
        (message = "lseek" ∨ message = "read") ∧ io.out = s.io.out := by
  have hstep : ∀ s₁ s₂, s₁.io.out = s.io.out → scanBody k bufferSize numLines s₁ = .again s₂ →
      s₂.io.out = s.io.out ∧ s₂.left numLines < s₁.left numLines := by
    intro s₁ s₂ hout h
    obtain ⟨-, io, buffer, hl, hr, -⟩ := scanBody_again h
    refine ⟨?_, scanBody_left hb h⟩
    rw [(Io.read_some hr).2.1, (Io.lseek_some hl).2, hout]
  obtain ⟨r, s', hrun, hout, hleave⟩ := loopN_total hstep rfl (s.left_lt numLines)
  rcases scanBody_leave hleave with ⟨-, rfl⟩ | ⟨-, message, io, rfl, hmessage, hio⟩
  · exact .inl ⟨s', hrun, hout⟩
  · exact .inr ⟨message, io, hrun, hmessage, hio.trans hout⟩

/-- A round of the copy loop: it ends it, or it has read something and written that. -/
theorem copyBody_cases (k : Kernel) (bufferSize : Nat) (io : Io) :
    (∃ e io', copyBody k bufferSize io = .leave (e, io') ∧ (e = .done ∨ e = .failure "write")) ∨
      ∃ io₁ io' buffer, io.read k bufferSize = some (buffer, io₁) ∧ buffer ≠ [] ∧
        io₁.write k buffer = some io' ∧ copyBody k bufferSize io = .again io' := by
  unfold copyBody
  cases hr : io.read k bufferSize with
  | none => exact .inl ⟨.done, io, rfl, .inl rfl⟩
  | some p =>
    by_cases hnil : p.1 = []
    · exact .inl ⟨.done, p.2, if_pos hnil, .inl rfl⟩
    · cases hw : p.2.write k p.1 with
      | none => exact .inl ⟨.failure "write", p.2, by simp [hnil, hw], .inr rfl⟩
      | some io' => exact .inr ⟨p.2, io', p.1, rfl, hnil, hw, by simp [hnil, hw]⟩

/-- A round that goes on leaves less to copy. -/
theorem copyBody_rest {io io' : Io} (h : copyBody k bufferSize io = .again io') :
    io'.fd.rest.length < io.fd.rest.length := by
  rcases copyBody_cases k bufferSize io with
    ⟨e, io₁, hstep, -⟩ | ⟨io₁, io₂, buffer, hr, hne, hw, hstep⟩
  · nomatch h.symm.trans hstep
  · obtain rfl := Turn.again.inj (h.symm.trans hstep)
    obtain ⟨hfd, -, hbuffer⟩ := Io.read_some hr
    have hpos : 0 < buffer.length := List.length_pos_iff.mpr hne
    have hle := hbuffer.length_le
    rw [Io.write_some hw, hfd, OpenFile.rest_skip, List.length_drop]
    omega

theorem copy_ends (io : Io) :
    ∃ e io', copy k bufferSize io = some (e, io') ∧ (e = .done ∨ e = .failure "write") := by
  have hstep : ∀ io₁ io₂ : Io, True → copyBody k bufferSize io₁ = .again io₂ →
      True ∧ io₂.fd.rest.length < io₁.fd.rest.length :=
    fun io₁ io₂ _ h => ⟨trivial, copyBody_rest h⟩
  obtain ⟨r, io₁, hrun, -, hleave⟩ := loopN_total hstep trivial (Nat.lt_succ_self _)
  rcases copyBody_cases k bufferSize io₁ with ⟨e, io', h, he⟩ | ⟨_, _, _, -, -, -, h⟩
  · obtain rfl := Turn.leave.inj (hleave.symm.trans h)
    exact ⟨e, io', hrun, he⟩
  · nomatch hleave.symm.trans h

theorem print_ends (s : Scan) :
    ∃ e io', print k bufferSize (.ok s) = some (e, io') ∧
      (e = .done ∨ e = .failure "write" ∨ e = .failure "lseek" ∧ io'.out = s.io.out) := by
  cases hl : s.io.lseek k s.pos with
  | none => exact ⟨.failure "lseek", s.io, by simp [print, hl], .inr (.inr ⟨rfl, rfl⟩)⟩
  | some io =>
    obtain ⟨e, io', hcopy, he⟩ := copy_ends (k := k) io
    exact ⟨e, io', by simpa [print, hl] using hcopy, he.imp_right .inl⟩

/-- `tail` comes back whatever the system calls do.  Of its messages, only that of `write` leaves it
    open whether something has been printed. -/
theorem tail_ends (hb : 0 < bufferSize) (io : Io) :
    ∃ e io', tail k bufferSize numLines io = some (e, io') ∧
      (e = .done ∨ e = .failure "write" ∨
        (e = .failure "lseek" ∨ e = .failure "read") ∧ io'.out = io.out) := by
  cases hl : io.lseek k io.fd.bytes.length with
  | none => exact ⟨.failure "lseek", io, by simp [tail, hl], .inr (.inr ⟨.inl rfl, rfl⟩)⟩
  | some io₁ =>
    have hout := (Io.lseek_some hl).2
    have htail : tail k bufferSize numLines io =
        (scan k bufferSize numLines ⟨io.fd.bytes.length, 0, io₁⟩).bind (print k bufferSize) := by
      simp [tail, hl]
    rw [htail]
    rcases scan_ends hb ⟨io.fd.bytes.length, 0, io₁⟩ with
      ⟨s, hscan, hs⟩ | ⟨message, io₂, hscan, hmessage, hio⟩
    · rw [hscan]
      obtain ⟨e, io', hprint, he⟩ := print_ends s
      refine ⟨e, io', hprint, he.imp_right (Or.imp_right ?_)⟩
      rintro ⟨rfl, hio⟩
      exact ⟨.inl rfl, hio.trans (hs.trans hout)⟩
    · rw [hscan]
      refine ⟨.failure message, io₂, rfl, .inr (.inr ⟨?_, hio.trans hout⟩)⟩
      exact hmessage.imp (congrArg Exit.failure) (congrArg Exit.failure)

end

/-! ## The scan -/

section

variable {bufferSize n : Nat}

theorem Io.lseek_full (io : Io) (pos : Nat) :
    io.lseek .full pos = some ⟨⟨io.fd.bytes, pos⟩, io.out, io.calls + 1⟩ := rfl

theorem Io.read_full (io : Io) (m : Nat) :
    io.read .full m = some (io.fd.rest.take m,
      ⟨io.fd.skip (io.fd.rest.take m).length, io.out, io.calls + 1⟩) := by
  simp [Io.read, Kernel.full]

theorem Io.write_full (io : Io) (data : List UInt8) :
    io.write .full data = some ⟨io.fd, io.out ++ data, io.calls + 1⟩ := by
  simp [Io.write, Kernel.full]

/-- The inner loop on a block `back.reverse` that stands behind `front`, with `count` newlines seen
    so far: it finds the place looked for, or carries the search on to `front`. -/
theorem countBack_spec (hn : n < 2 ^ 31 - 1) (front back : List UInt8) :
    ∀ count ≤ n,
      countBack n back (front.length, (count : Int)) =
          (backTo LF (n - count) (front ++ back.reverse), ((n + 1 : Nat) : Int)) ∨
        ∃ count' ≤ n, countBack n back (front.length, (count : Int)) =
            (front.length, (count' : Int)) ∧
          backTo LF (n - count) (front ++ back.reverse) =
            backTo LF (n - count') front := by
  induction back with
  | nil =>
    intro count hcount
    exact .inr ⟨count, hcount, rfl, by simp⟩
  | cons c left ih =>
    intro count hcount
    rw [List.reverse_cons, ← List.append_assoc, countBack]
    by_cases hc : c = LF
    · subst hc
      have hnext : addInt count 1 = ((count + 1 : Nat) : Int) :=
        addInt_natCast (b := 1) (by omega)
      rw [if_pos rfl, hnext]
      by_cases hlast : count = n
      · -- this newline is the one looked for
        subst hlast
        rw [if_pos (by omega), Nat.sub_self, backTo_concat_zero]
        simp [Nat.add_assoc]
      · have hsub : n - count = n - (count + 1) + 1 := by omega
        rw [if_neg (by omega), hsub, backTo_concat_succ]
        exact ih (count + 1) (by omega)
    · rw [if_neg hc, backTo_concat_ne hc]
      exact ih count hcount

/-- The scan is under way in `content`: either it has just found the place, or that is the one a
    scan of the bytes before `pos` finds with the newlines that are still to count. -/
structure Scanning (content out : List UInt8) (n : Nat) (s : Scan) : Prop where
  bytes : s.io.fd.bytes = content
  out : s.io.out = out
  place : (s.lineCount = ((n + 1 : Nat) : Int) ∧ s.pos = backTo LF n content) ∨
    ∃ count ≤ n, s.lineCount = (count : Int) ∧ s.pos ≤ content.length ∧
      backTo LF (n - count) (content.take s.pos) = backTo LF n content

/-- A round of the scan moves it on by a block. -/
theorem Scanning.next {content out : List UInt8} {s s' : Scan} (hn : n < 2 ^ 31 - 1)
    (h : Scanning content out n s) (hagain : scanBody .full bufferSize n s = .again s') :
    Scanning content out n s' := by
  obtain ⟨⟨hpos, hcount⟩, io, buffer, hl, hr, hback⟩ := scanBody_again hagain
  obtain ⟨hfd, hout⟩ := Io.lseek_some hl
  obtain ⟨hfd', hout', -⟩ := Io.read_some hr
  rw [Io.read_full, Option.some.injEq, Prod.mk.injEq, hfd, h.bytes] at hr
  have hle := toRead_le bufferSize s.pos
  generalize toRead bufferSize s.pos = m at hback hr hle
  refine ⟨by rw [hfd', hfd]; exact h.bytes, by rw [hout', hout, h.out], ?_⟩
  rcases h.place with ⟨hlast, -⟩ | ⟨count, hle_n, hcount', hlen, hplace⟩
  · omega
  -- the block is what stands in the file before the old `pos`
  have hbuffer : buffer = (content.drop (s.pos - m)).take m := hr.1.symm
  have htext : content.take (s.pos - m) ++ buffer.reverse.reverse = content.take s.pos := by
    rw [List.reverse_reverse, hbuffer, ← List.take_add, Nat.sub_add_cancel hle]
  have hfront : (content.take (s.pos - m)).length = s.pos - m := by
    rw [List.length_take]
    omega
  have hspec := countBack_spec hn (content.take (s.pos - m)) buffer.reverse count hle_n
  rw [htext, hfront, ← hcount', hback, Prod.mk.injEq, hplace] at hspec
  rcases hspec with ⟨hfound, hlast⟩ | ⟨count', hle_n', hcarry, hplace'⟩
  · exact .inl ⟨hlast, hfound⟩
  · obtain ⟨hpos', hcount''⟩ := Prod.mk.inj hcarry
    refine .inr ⟨count', hle_n', hcount'', by omega, ?_⟩
    rw [hpos', hplace']

/-- The scan ends at the place behind the newline looked for, whatever the size of the blocks. -/
theorem scan_spec (hn : n < 2 ^ 31 - 1) (hb : 0 < bufferSize) (io : Io) :
    ∃ s, scan .full bufferSize n ⟨io.fd.bytes.length, 0, io⟩ = some (.ok s) ∧
      s.pos = backTo LF n io.fd.bytes ∧ s.io.fd.bytes = io.fd.bytes ∧ s.io.out = io.out := by
  have hstart : Scanning io.fd.bytes io.out n ⟨io.fd.bytes.length, 0, io⟩ :=
    ⟨rfl, rfl, .inr ⟨0, Nat.zero_le n, rfl, Nat.le_refl _, by simp⟩⟩
  have hstep : ∀ s s', Scanning io.fd.bytes io.out n s →
      scanBody .full bufferSize n s = .again s' →
      Scanning io.fd.bytes io.out n s' ∧ s'.left n < s.left n :=
    fun s s' hs hagain => ⟨hs.next hn hagain, scanBody_left hb hagain⟩
  obtain ⟨r, s, hrun, hs, hleave⟩ := loopN_total hstep hstart (Scan.left_lt _ _)
  rcases scanBody_leave hleave with ⟨hover, rfl⟩ | ⟨⟨i, m, hfail⟩, -⟩
  · refine ⟨s, hrun, ?_, hs.bytes, hs.out⟩
    rcases hs.place with ⟨-, hplace⟩ | ⟨count, hcount, hlineCount, -, hplace⟩
    · exact hplace
    · -- the count is not past `n`, so the beginning of the file has been reached
      have hzero : s.pos = 0 := by omega
      rw [hzero, List.take_zero, backTo_nil] at hplace
      rw [hzero, hplace]
  · nomatch hfail

/-! ## What is printed -/

theorem copyBody_full (io : Io) :
    copyBody .full bufferSize io =
      if io.fd.rest.take bufferSize = [] then
        .leave (.done, ⟨io.fd.skip (io.fd.rest.take bufferSize).length, io.out, io.calls + 1⟩)
      else
        .again ⟨io.fd.skip (io.fd.rest.take bufferSize).length,
          io.out ++ io.fd.rest.take bufferSize, io.calls + 1 + 1⟩ := by
  unfold copyBody
  simp only [Io.read_full, Io.write_full]

theorem copy_spec (hb : 0 < bufferSize) (io : Io) :
    ∃ io', copy .full bufferSize io = some (.done, io') ∧ io'.out = io.out ++ io.fd.rest := by
  have hstep : ∀ io₁ io₂ : Io, io₁.out ++ io₁.fd.rest = io.out ++ io.fd.rest →
      copyBody .full bufferSize io₁ = .again io₂ →
      io₂.out ++ io₂.fd.rest = io.out ++ io.fd.rest ∧
        io₂.fd.rest.length < io₁.fd.rest.length := by
    intro io₁ io₂ hout h
    refine ⟨?_, copyBody_rest h⟩
    rw [copyBody_full] at h
    split at h
    · nomatch h
    · obtain rfl := (Turn.again.inj h).symm
      have hjoin := List.prefix_iff_eq_append.mp (List.take_prefix bufferSize io₁.fd.rest)
      show io₁.out ++ io₁.fd.rest.take bufferSize ++ (io₁.fd.skip _).rest = _
      rw [OpenFile.rest_skip, List.append_assoc, hjoin, hout]
  obtain ⟨r, s, hrun, hs, hleave⟩ := loopN_total hstep rfl (Nat.lt_succ_self _)
  rw [copyBody_full] at hleave
  split at hleave
  · next hnil =>
    have hrest : s.fd.rest = [] := (List.take_eq_nil_iff.mp hnil).resolve_left (by omega)
    rw [hrest, List.append_nil] at hs
    exact ⟨_, hrun.trans (congrArg some (Turn.leave.inj hleave).symm), hs⟩
  · nomatch hleave

/-- `tail` on a file that is read and written without a failed or a short call. -/
theorem tail_full (hn : n < 2 ^ 31 - 1) (hb : 0 < bufferSize) (io : Io) :
    ∃ io', tail .full bufferSize n io = some (.done, io') ∧
      io'.out = io.out ++ io.fd.bytes.drop (backTo LF n io.fd.bytes) := by
  obtain ⟨s, hscan, hpos, hbytes, hout⟩ :=
    scan_spec hn hb ⟨⟨io.fd.bytes, io.fd.bytes.length⟩, io.out, io.calls + 1⟩
  obtain ⟨io', hcopy, hio'⟩ := copy_spec hb ⟨⟨s.io.fd.bytes, s.pos⟩, s.io.out, s.io.calls + 1⟩
  refine ⟨io', ?_, ?_⟩
  · rw [tail, Io.lseek_full]
    simp only [hscan, Option.bind_some, print, Io.lseek_full]
    exact hcopy
  · rw [hio', hout, OpenFile.rest, hbytes, hpos]

/-- Block by block from the end, the scan arrives behind the `(n + 1)`-th newline of the whole file,
    with blocks of any size, and `tail` prints the file from there on. -/
theorem tail_prints_from_backTo (hn : n < 2 ^ 31 - 1) (hb : 0 < bufferSize) (io : Io) :
    (∃ s, scan .full bufferSize n ⟨io.fd.bytes.length, 0, io⟩ = some (.ok s) ∧
        s.pos = backTo LF n io.fd.bytes) ∧
      ∃ io', tail .full bufferSize n io = some (.done, io') ∧
        io'.out = io.out ++ io.fd.bytes.drop (backTo LF n io.fd.bytes) := by
  obtain ⟨s, hscan, hpos, -, -⟩ := scan_spec hn hb io
  exact ⟨⟨s, hscan, hpos⟩, tail_full hn hb io⟩

/-- Blocks of two bytes, and a newline at the end of one and one at the beginning of another. -/
theorem tail_prints_from_backTo_two :
    (∃ s, scan .full 2 (1 : Nat) ⟨5, 0, ⟨⟨[97, 10, 98, 99, 10], 0⟩, [], 0⟩⟩ = some (.ok s) ∧
        s.pos = 2) ∧
      ∃ io', tail .full 2 (1 : Nat) ⟨⟨[97, 10, 98, 99, 10], 0⟩, [], 0⟩ = some (.done, io') ∧
        io'.out = [98, 99, 10] :=
  tail_prints_from_backTo (n := 1) (by decide) (by decide) ⟨⟨[97, 10, 98, 99, 10], 0⟩, [], 0⟩

/-- `tail` prints the last `n` lines exactly if the file has no unfinished line or no more than `n`
    lines. -/
theorem tail_lastLines_iff (hn : n < 2 ^ 31 - 1) (content : List UInt8) :
    ∃ io', tail .full BUFFER_SIZE n ⟨⟨content, 0⟩, [], 0⟩ = some (.done, io') ∧
      (io'.out = lastLines LF n content ↔
        Finished LF content ∨ (lines LF content).length ≤ n) := by
  obtain ⟨io', htail, hout⟩ := tail_full hn (by decide : 0 < BUFFER_SIZE) ⟨⟨content, 0⟩, [], 0⟩
  refine ⟨io', htail, ?_⟩
  rw [hout, List.nil_append, drop_backTo]
  by_cases hfin : Finished LF content
  · simp [hfin]
  · rw [if_neg hfin, lastLines_succ_eq_iff]
    simp [hfin]

/-- Two lines, both finished, and the last one asked for. -/
theorem tail_lastLines_finished :
    ∃ io', tail .full BUFFER_SIZE (1 : Nat) ⟨⟨[97, 10, 98, 10], 0⟩, [], 0⟩ = some (.done, io') ∧
      (io'.out = lastLines LF 1 [97, 10, 98, 10] ↔
        Finished LF [97, 10, 98, 10] ∨ (lines LF [97, 10, 98, 10]).length ≤ 1) :=
  tail_lastLines_iff (n := 1) (by decide) [97, 10, 98, 10]

/-- Two lines, the second unfinished: asked for the last one, `tail` prints both. -/
theorem tail_prints_one_more :
    (tail .full BUFFER_SIZE 1 ⟨⟨[97, 10, 98], 0⟩, [], 0⟩).map (fun r => (r.1, r.2.out)) =
        some (.done, [97, 10, 98]) ∧
      lastLines LF 1 [97, 10, 98] = [98] := by
  decide +kernel

end

end LinuxInterface.Tail
