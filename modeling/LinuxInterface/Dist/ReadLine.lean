/-
  sockets/read_line.c and read_line_buf.c (tlpi-dist): a line from a descriptor, read a byte at a time
  or through a buffer of the caller's.

  1. **The functions** — `readLine` and `readLineBuf`, on a source that answers with any script.  What
     a call stores is `buffer`; the caller looks at the first `ret` bytes, the `text`.

  2. **One call of `readLine`** — the next line, cut to the room there is (`readLine_spec`).

  3. **One call of `readLineBuf`** — the same for the bytes in its buffer and those still to be read
     (`readLineBuf_spec`); but where a read is interrupted, what it has taken of the line is gone
     (`readLineBuf_interrupted`).

  4. **Any number of calls** — `readLineBuf` with room `n` does what `readLine` does with `n + 1`.
-/
import LinuxInterface.Base.Channel
import LinuxInterface.Base.Loop
import LinuxInterface.Base.Lines
import LinuxInterface.Base.Stdio

namespace LinuxInterface.ReadLine

open LinuxInterface

/-! ## The functions -/

/-- What a call returns and stores. -/
structure Line where
  ret : Int
  buffer : List UInt8

def Line.text (r : Line) : List UInt8 := r.buffer.take r.ret.toNat

/-- A round of the loop of `readLine`, with `buf` stored so far. -/
def readLineRound (n : Nat) (s : List UInt8 × Source) : Turn (List UInt8 × Source) (Line × Source) :=
  let (buf, src) := s
  match src.read 1 with
  | (.interrupted, src') => .again (buf, src')
  | (.failed, src') => .leave (⟨-1, buf⟩, src')
  | (.done [], src') =>
    -- at the end the string is terminated if there is one
    if buf.length = 0 then .leave (⟨0, buf⟩, src') else .leave (⟨buf.length, buf ++ [0]⟩, src')
  | (.done (ch :: _), src') =>
    let buf' := if buf.length < n - 1 then buf ++ [ch] else buf
    if ch = LF then .leave (⟨buf'.length, buf' ++ [0]⟩, src') else .again (buf', src')

def readLine (n : Nat) (src : Source) : Option (Line × Source) :=
  if n = 0 then some (⟨-1, []⟩, src)
  else loopN (readLineRound n) (src.size + 1) ([], src)

def RL_MAX_BUF : Nat := 10

/-- `struct ReadLineBuf`, with the source behind its descriptor; `buf` has the bytes of the last read
    that got some. -/
structure ReadLineBuf where
  buf : List UInt8
  next : Nat
  len : Int
  src : Source
  filled : 0 < len → len = buf.length

def readLineBufInit (src : Source) : ReadLineBuf := ⟨[], 0, 0, src, nofun⟩

/-- `rlbuf->len = read(...)` at the end of the file or with an error. -/
def ReadLineBuf.nothing (rl : ReadLineBuf) (len : Int) (h : len ≤ 0) (src : Source) : ReadLineBuf :=
  { rl with len := len, src := src, filled := fun hpos => absurd hpos (Int.not_lt.mpr h) }

/-- `rlbuf->next++`. -/
def ReadLineBuf.advance (rl : ReadLineBuf) : ReadLineBuf := { rl with next := rl.next + 1 }

/-- The buffer after a read that has got some bytes. -/
def ReadLineBuf.full (bytes : List UInt8) (src : Source) : ReadLineBuf :=
  ⟨bytes, 0, bytes.length, src, fun _ => rfl⟩

/-- The rest of a round of `readLineBuf`: a character from the buffer. -/
def takeChar (n : Nat) (buffer : List UInt8) (rl : ReadLineBuf) :
    Turn (List UInt8 × ReadLineBuf) (Line × ReadLineBuf) :=
  let c := rl.buf.getD rl.next 0
  let buffer' := if buffer.length < n then buffer ++ [c] else buffer
  if c = LF then .leave (⟨buffer'.length, buffer'⟩, rl.advance) else .again (buffer', rl.advance)

def readLineBufRound (n : Nat) (s : List UInt8 × ReadLineBuf) :
    Turn (List UInt8 × ReadLineBuf) (Line × ReadLineBuf) :=
  let (buffer, rl) := s
  if rl.len ≤ rl.next then
    match rl.src.read RL_MAX_BUF with
    | (.interrupted, src') => .leave (⟨-1, buffer⟩, rl.nothing (-1) (by decide) src')
    | (.failed, src') => .leave (⟨-1, buffer⟩, rl.nothing (-1) (by decide) src')
    | (.done [], src') => .leave (⟨buffer.length, buffer⟩, rl.nothing 0 (by decide) src')
    | (.done (c :: cs), src') => takeChar n buffer (.full (c :: cs) src')
  else takeChar n buffer rl

/-- The bytes in the buffer that are still to be taken. -/
def ReadLineBuf.unread (rl : ReadLineBuf) : List UInt8 :=
  if rl.len ≤ rl.next then [] else rl.buf.drop rl.next

def readLineBuf (n : Nat) (rl : ReadLineBuf) : Option (Line × ReadLineBuf) :=
  if n = 0 then some (⟨-1, []⟩, rl)
  else loopN (readLineBufRound n) (rl.unread.length + rl.src.size + 1) ([], rl)

/-! ## One call of `readLine` -/

/-- The part of a line that has been read: no newline yet, and stored as far as there is room. -/
structure Begun (room : Nat) (input seen buf rest : List UInt8) : Prop where
  split : seen ++ rest = input
  noLF : LF ∉ seen
  stored : buf = seen.take room

variable {room : Nat} {input seen buf rest : List UInt8} {c : UInt8}

theorem begun_start (room : Nat) (input : List UInt8) : Begun room input [] [] input :=
  ⟨rfl, nofun, List.take_nil.symm⟩

/-- Storing a character where there is room. -/
theorem take_store (seen : List UInt8) (c : UInt8) :
    (if (seen.take room).length < room then seen.take room ++ [c] else seen.take room)
      = (seen ++ [c]).take room := by
  rw [List.length_take]
  split
  · next h =>
    have hlt : seen.length < room := by omega
    rw [List.take_of_length_le (Nat.le_of_lt hlt), List.take_of_length_le]
    rw [List.length_append]
    exact hlt
  · next h => rw [List.take_append_of_le_length (by omega)]

/-- One more character of the line. -/
theorem Begun.more (h : Begun room input seen buf (c :: rest)) (hc : c ≠ LF) :
    Begun room input (seen ++ [c]) (if buf.length < room then buf ++ [c] else buf) rest := by
  refine ⟨?_, ?_, ?_⟩
  · rw [List.append_assoc]
    exact h.split
  · rw [List.mem_append]
    rintro (hmem | hmem)
    · exact h.noLF hmem
    · exact hc (List.mem_singleton.mp hmem).symm
  · rw [h.stored, take_store]

/-- The newline. -/
theorem Begun.newline (h : Begun room input seen buf (LF :: rest)) :
    (if buf.length < room then buf ++ [LF] else buf) = (firstLine LF input).take room
      ∧ rest = input.drop (firstLine LF input).length := by
  rw [h.stored, take_store, ← h.split, firstLine_of_mem h.noLF]
  refine ⟨rfl, ?_⟩
  rw [List.append_cons seen LF rest, List.drop_left]

/-- The end. -/
theorem Begun.atEnd (h : Begun room input seen buf []) :
    buf = (firstLine LF input).take room ∧ [] = input.drop (firstLine LF input).length := by
  obtain ⟨hsplit, hno, hstored⟩ := h
  rw [List.append_nil] at hsplit
  subst hsplit
  rw [firstLine_of_not_mem hno]
  exact ⟨hstored, List.drop_length.symm⟩

/-- A call that has got the next line, or what there is room for of it. -/
structure Gets (room : Nat) (input : List UInt8) (r : Line) (rest : List UInt8) : Prop where
  ret : r.ret = ((firstLine LF input).take room).length
  text : r.text = (firstLine LF input).take room
  rest : rest = input.drop (firstLine LF input).length

theorem gets_of_begins {r : Line} (hret : r.ret = ((firstLine LF input).take room).length)
    (hbuf : (firstLine LF input).take room <+: r.buffer)
    (hrest : rest = input.drop (firstLine LF input).length) : Gets room input r rest := by
  refine ⟨hret, ?_, hrest⟩
  obtain ⟨t, ht⟩ := hbuf
  rw [Line.text, hret, Int.toNat_natCast, ← ht, List.take_left]

/-- What `readLine` returns: the next line, or -1 where a read has failed.  It stores no more than
    `n` bytes, and a text is terminated. -/
structure ReadLineSpec (n : Nat) (src : Source) (r : Line) (src' : Source) : Prop where
  line : Gets (n - 1) src.input r src'.input ∨ (r.ret = -1 ∧ .failed ∈ src.script)
  bound : r.buffer.length ≤ n
  terminated : 0 < r.ret → r.buffer = r.text ++ [0]
  script : ∀ a ∈ src'.script, a ∈ src.script

variable {n : Nat} {src₀ : Source} {s s' : List UInt8 × Source}

/-- In the loop. -/
def ReadingLine (n : Nat) (src₀ : Source) (s : List UInt8 × Source) : Prop :=
  (∃ seen, Begun (n - 1) src₀.input seen s.1 s.2.input) ∧ ∀ a ∈ s.2.script, a ∈ src₀.script

theorem ReadingLine.again (h : ReadingLine n src₀ s) (hs : readLineRound n s = .again s') :
    ReadingLine n src₀ s' ∧ s'.2.size < s.2.size := by
  obtain ⟨buf, src⟩ := s
  obtain ⟨⟨seen, hbegun⟩, hscript⟩ := h
  unfold readLineRound at hs
  dsimp only at hs hbegun hscript
  split at hs
  · next src' hread =>
    cases hs
    obtain ⟨hcons, hinput, hsize⟩ := Source.read_interrupted hread
    refine ⟨⟨⟨seen, ?_⟩, fun a ha => hscript a ?_⟩, hsize⟩
    · dsimp only
      rw [hinput]
      exact hbegun
    · rw [hcons]
      exact List.mem_cons_of_mem _ ha
  · cases hs
  · split at hs
    · cases hs
    · cases hs
  · next ch cs src' hread =>
    obtain ⟨hsplit, hlen, hsub, hsize⟩ := Source.read_done hread
    obtain rfl : cs = [] := by
      rw [List.length_cons] at hlen
      exact List.eq_nil_of_length_eq_zero (by omega)
    split at hs
    · cases hs
    · next hne =>
      cases hs
      rw [← hsplit] at hbegun
      exact ⟨⟨⟨_, hbegun.more hne⟩, fun a ha => hscript a (hsub a ha)⟩, hsize⟩

theorem ReadingLine.leave {r : Line × Source} (hn : n ≠ 0) (h : ReadingLine n src₀ s)
    (hs : readLineRound n s = .leave r) : ReadLineSpec n src₀ r.1 r.2 := by
  obtain ⟨buf, src⟩ := s
  obtain ⟨⟨seen, hbegun⟩, hscript⟩ := h
  unfold readLineRound at hs
  dsimp only at hs hbegun hscript
  have hroom : buf.length ≤ n - 1 := by
    rw [hbegun.stored]
    exact List.length_take_le _ _
  split at hs
  · cases hs
  · next src' hread =>
    cases hs
    obtain ⟨hcons, hinput⟩ := Source.read_failed hread
    have hfailed : .failed ∈ src₀.script := hscript _ (hcons ▸ List.mem_cons_self)
    refine ⟨Or.inr ⟨rfl, hfailed⟩, by dsimp only; omega, nofun, fun a ha => hscript a ?_⟩
    rw [hcons]
    exact List.mem_cons_of_mem _ ha
  · next src' hread =>
    obtain ⟨hend, hend', hsub⟩ := Source.read_end Nat.one_pos hread
    rw [hend] at hbegun
    obtain ⟨hbuf, hrest⟩ := hbegun.atEnd
    split at hs
    · next hzero =>
      cases hs
      have hret : (0 : Int) = ((firstLine LF src₀.input).take (n - 1)).length := by rw [← hbuf, hzero]; rfl
      refine ⟨Or.inl (gets_of_begins hret ⟨[], ?_⟩ (hend'.trans hrest)), by dsimp only; omega, nofun,
        fun a ha => hscript a (hsub a ha)⟩
      rw [List.append_nil, hbuf]
    · cases hs
      refine ⟨Or.inl (gets_of_begins (by rw [← hbuf]) ⟨[0], by rw [hbuf]⟩ (hend'.trans hrest)), ?_, ?_,
        fun a ha => hscript a (hsub a ha)⟩
      · rw [List.length_append, List.length_singleton]
        omega
      · intro _
        rw [Line.text, Int.toNat_natCast, List.take_left]
  · next ch cs src' hread =>
    obtain ⟨hsplit, hlen, hsub, hsize⟩ := Source.read_done hread
    obtain rfl : cs = [] := by
      rw [List.length_cons] at hlen
      exact List.eq_nil_of_length_eq_zero (by omega)
    split at hs
    · next hLF =>
      cases hs
      subst hLF
      rw [← hsplit] at hbegun
      obtain ⟨hbuf, hrest⟩ := hbegun.newline
      refine ⟨Or.inl (gets_of_begins (by rw [← hbuf]) ⟨[0], by rw [hbuf]⟩ hrest), ?_, ?_,
        fun a ha => hscript a (hsub a ha)⟩
      · rw [hbuf, List.length_append, List.length_singleton, List.length_take]
        omega
      · intro _
        rw [Line.text, Int.toNat_natCast, List.take_left]
    · cases hs

/-- **`readLine` returns**, and as it should. -/
theorem readLine_spec (hn : n ≠ 0) (src : Source) :
    ∃ r src', readLine n src = some (r, src') ∧ ReadLineSpec n src r src' := by
  have hstart : ReadingLine n src ([], src) := ⟨⟨[], begun_start _ _⟩, fun _ h => h⟩
  obtain ⟨r, s, hr, hs, hleave⟩ := loopN_total (μ := fun s : List UInt8 × Source => s.2.size)
    (fun s s' hI hb => hI.again hb) hstart (Nat.lt_succ_self src.size)
  refine ⟨r.1, r.2, ?_, hs.leave hn hleave⟩
  rw [readLine, if_neg hn]
  exact hr

/-! ## One call of `readLineBuf` -/

/-- All that is still to come. -/
def ReadLineBuf.stream (rl : ReadLineBuf) : List UInt8 := rl.unread ++ rl.src.input

variable {rl rl' : ReadLineBuf}

theorem unread_nothing {len : Int} (h : len ≤ 0) (src : Source) : (rl.nothing len h src).unread = [] := by
  have hle : len ≤ rl.next := by omega
  exact if_pos hle

/-- The character that is taken is the first unread one. -/
theorem unread_cons (h : ¬ rl.len ≤ rl.next) :
    rl.unread = rl.buf.getD rl.next 0 :: rl.advance.unread := by
  have hlen : rl.len = rl.buf.length := rl.filled (by omega)
  have hnext : rl.next < rl.buf.length := by omega
  have hrest : rl.advance.unread = rl.buf.drop (rl.next + 1) := by
    unfold ReadLineBuf.unread ReadLineBuf.advance
    dsimp only
    split
    · exact (List.drop_eq_nil_of_le (by omega)).symm
    · rfl
  have hchar : rl.buf.getD rl.next 0 = rl.buf[rl.next] := by simp [hnext]
  rw [hrest, hchar, ReadLineBuf.unread, if_neg h, List.drop_eq_getElem_cons hnext]

theorem stream_cons (h : ¬ rl.len ≤ rl.next) :
    rl.stream = rl.buf.getD rl.next 0 :: rl.advance.stream := by
  rw [ReadLineBuf.stream, unread_cons h]
  rfl

theorem unread_full (src : Source) (cs : List UInt8) :
    (ReadLineBuf.full (c :: cs) src).unread = c :: cs := if_neg (by simp [ReadLineBuf.full])

/-- In the loop. -/
def ReadingBuf (n : Nat) (rl₀ : ReadLineBuf) (s : List UInt8 × ReadLineBuf) : Prop :=
  (∃ seen, Begun n rl₀.stream seen s.1 s.2.stream) ∧ ∀ a ∈ s.2.src.script, a ∈ rl₀.src.script

/-- What there is to do, in characters and answers. -/
def left (s : List UInt8 × ReadLineBuf) : Nat := s.2.unread.length + s.2.src.size

/-- What `readLineBuf` returns: the next line, or -1 where a read has been interrupted or has failed.
    It stores no more than `n` bytes, none of them a terminator. -/
structure ReadLineBufSpec (n : Nat) (rl : ReadLineBuf) (r : Line) (rl' : ReadLineBuf) : Prop where
  line : Gets n rl.stream r rl'.stream
    ∨ (r.ret = -1 ∧ (.failed ∈ rl.src.script ∨ .interrupted ∈ rl.src.script))
  bound : r.buffer.length ≤ n
  script : ∀ a ∈ rl'.src.script, a ∈ rl.src.script

variable {rl₀ : ReadLineBuf} {buffer : List UInt8} {t t' : List UInt8 × ReadLineBuf}

/-- A character less. -/
theorem left_advance {buffer' : List UInt8} (hlen : ¬ rl.len ≤ rl.next) :
    left (buffer', rl.advance) < left (buffer, rl) := by
  show rl.advance.unread.length + rl.src.size < rl.unread.length + rl.src.size
  rw [unread_cons hlen, List.length_cons]
  omega

/-- What a read brings was there before. -/
theorem left_full {cs : List UInt8} {src' : Source}
    (hread : rl.src.read RL_MAX_BUF = (.done (c :: cs), src')) :
    left (buffer, .full (c :: cs) src') ≤ left (buffer, rl) := by
  obtain ⟨-, -, -, hsize⟩ := Source.read_done hread
  show (ReadLineBuf.full (c :: cs) src').unread.length + src'.size ≤ rl.unread.length + rl.src.size
  rw [unread_full]
  omega

theorem ReadingBuf.takeChar_again (h : ReadingBuf n rl₀ (buffer, rl)) (hlen : ¬ rl.len ≤ rl.next)
    (hs : takeChar n buffer rl = .again t') : ReadingBuf n rl₀ t' ∧ left t' < left (buffer, rl) := by
  obtain ⟨⟨seen, hbegun⟩, hscript⟩ := h
  unfold takeChar at hs
  dsimp only at hs hbegun hscript
  split at hs
  · cases hs
  · next hne =>
    cases hs
    rw [stream_cons hlen] at hbegun
    exact ⟨⟨⟨_, hbegun.more hne⟩, hscript⟩, left_advance hlen⟩

theorem ReadingBuf.takeChar_leave {r : Line × ReadLineBuf} (h : ReadingBuf n rl₀ (buffer, rl))
    (hlen : ¬ rl.len ≤ rl.next) (hs : takeChar n buffer rl = .leave r) :
    ReadLineBufSpec n rl₀ r.1 r.2 := by
  obtain ⟨⟨seen, hbegun⟩, hscript⟩ := h
  unfold takeChar at hs
  dsimp only at hs hbegun hscript
  split at hs
  · next hLF =>
    cases hs
    rw [stream_cons hlen, hLF] at hbegun
    obtain ⟨hbuf, hrest⟩ := hbegun.newline
    rw [hLF, hbuf]
    refine ⟨Or.inl (gets_of_begins rfl ⟨[], List.append_nil _⟩ hrest), ?_, hscript⟩
    exact List.length_take_le _ _
  · cases hs

/-- A read that gets something fills the buffer, and the round goes on from there. -/
theorem ReadingBuf.fill {cs : List UInt8} {src' : Source} (h : ReadingBuf n rl₀ (buffer, rl))
    (hlen : rl.len ≤ rl.next) (hread : rl.src.read RL_MAX_BUF = (.done (c :: cs), src')) :
    ReadingBuf n rl₀ (buffer, .full (c :: cs) src') := by
  obtain ⟨⟨seen, hbegun⟩, hscript⟩ := h
  obtain ⟨hsplit, -, hsub, -⟩ := Source.read_done hread
  have hunread : rl.unread = [] := if_pos hlen
  have hstream : (ReadLineBuf.full (c :: cs) src').stream = rl.stream := by
    rw [ReadLineBuf.stream, unread_full, ReadLineBuf.stream, hunread, List.nil_append, ← hsplit]
    rfl
  refine ⟨⟨seen, ?_⟩, fun a ha => hscript a (hsub a ha)⟩
  dsimp only
  rw [hstream]
  exact hbegun

theorem full_not_le (cs : List UInt8) (src' : Source) :
    ¬ (ReadLineBuf.full (c :: cs) src').len ≤ (ReadLineBuf.full (c :: cs) src').next := by
  simp [ReadLineBuf.full]

theorem ReadingBuf.again (h : ReadingBuf n rl₀ t) (hs : readLineBufRound n t = .again t') :
    ReadingBuf n rl₀ t' ∧ left t' < left t := by
  obtain ⟨buffer, rl⟩ := t
  unfold readLineBufRound at hs
  dsimp only at hs
  split at hs
  · next hlen =>
    split at hs
    · cases hs
    · cases hs
    · cases hs
    · next c cs src' hread =>
      obtain ⟨hnext, hlt⟩ := (h.fill hlen hread).takeChar_again (full_not_le cs src') hs
      exact ⟨hnext, Nat.lt_of_lt_of_le hlt (left_full hread)⟩
  · next hlen => exact h.takeChar_again hlen hs

theorem ReadingBuf.leave {r : Line × ReadLineBuf} (h : ReadingBuf n rl₀ t)
    (hs : readLineBufRound n t = .leave r) : ReadLineBufSpec n rl₀ r.1 r.2 := by
  obtain ⟨buffer, rl⟩ := t
  obtain ⟨⟨seen, hbegun⟩, hscript⟩ := id h
  unfold readLineBufRound at hs
  dsimp only at hs hbegun hscript
  have hroom : buffer.length ≤ n := by
    rw [hbegun.stored]
    exact List.length_take_le _ _
  split at hs
  · next hlen =>
    have hunread : rl.unread = [] := if_pos hlen
    split at hs
    · next src' hread =>
      cases hs
      obtain ⟨hcons, -, -⟩ := Source.read_interrupted hread
      refine ⟨Or.inr ⟨rfl, Or.inr (hscript _ ?_)⟩, hroom, fun a ha => hscript a ?_⟩
      · rw [hcons]
        exact List.mem_cons_self
      · rw [hcons]
        exact List.mem_cons_of_mem _ ha
    · next src' hread =>
      cases hs
      obtain ⟨hcons, -⟩ := Source.read_failed hread
      refine ⟨Or.inr ⟨rfl, Or.inl (hscript _ ?_)⟩, hroom, fun a ha => hscript a ?_⟩
      · rw [hcons]
        exact List.mem_cons_self
      · rw [hcons]
        exact List.mem_cons_of_mem _ ha
    · next src' hread =>
      cases hs
      obtain ⟨hend, hend', hsub⟩ := Source.read_end (by decide) hread
      have hstream : rl.stream = [] := by
        rw [ReadLineBuf.stream, hunread, hend]
        rfl
      have hstream' : (rl.nothing 0 (by decide) src').stream = [] := by
        rw [ReadLineBuf.stream, unread_nothing, List.nil_append]
        exact hend'
      rw [hstream] at hbegun
      obtain ⟨hbuf, hrest⟩ := hbegun.atEnd
      refine ⟨Or.inl (gets_of_begins (by rw [← hbuf]) ⟨[], ?_⟩ (hstream'.trans hrest)), hroom,
        fun a ha => hscript a (hsub a ha)⟩
      rw [List.append_nil, hbuf]
    · next c cs src' hread =>
      exact (h.fill hlen hread).takeChar_leave (full_not_le cs src') hs
  · next hlen => exact h.takeChar_leave hlen hs

/-- **`readLineBuf` returns**, and as it should. -/
theorem readLineBuf_spec (hn : n ≠ 0) (rl : ReadLineBuf) :
    ∃ r rl', readLineBuf n rl = some (r, rl') ∧ ReadLineBufSpec n rl r rl' := by
  have hstart : ReadingBuf n rl ([], rl) := ⟨⟨[], begun_start _ _⟩, fun _ h => h⟩
  obtain ⟨r, t, hr, ht, hleave⟩ := loopN_total (μ := left) (fun t t' hI hb => hI.again hb) hstart
    (Nat.lt_succ_self (rl.unread.length + rl.src.size))
  refine ⟨r.1, r.2, ?_, ht.leave hleave⟩
  rw [readLineBuf, if_neg hn]
  exact hr

/-- Reads into the buffer, one after the other, that all get something. -/
inductive Fetches : Source → List UInt8 → Source → Prop where
  | none {src : Source} : Fetches src [] src
  | more {src src' src'' : Source} {c : UInt8} {cs bytes : List UInt8}
      (hread : src.read RL_MAX_BUF = (.done (c :: cs), src')) (hmore : Fetches src' bytes src'') :
      Fetches src (c :: cs ++ bytes) src''

/-- In the loop, on the way through the bytes that come before an interrupted read. -/
def Emptying (n : Nat) (all : List UInt8) (src : Source) (t : List UInt8 × ReadLineBuf) : Prop :=
  ∃ seen ahead, Fetches t.2.src ahead src ∧ seen ++ (t.2.unread ++ ahead) = all ∧ t.1 = seen.take n

section Interrupted

variable {all bytes : List UInt8} {src : Source} {script : List Answer}

/-- A character of the buffer; there is no newline to leave at. -/
theorem Emptying.takeChar (h : Emptying n all src (buffer, rl)) (hlen : ¬ rl.len ≤ rl.next)
    (hLF : LF ∉ all) :
    ∃ t', takeChar n buffer rl = .again t' ∧ Emptying n all src t' ∧ left t' < left (buffer, rl) := by
  obtain ⟨seen, ahead, hfetch, hsplit, hstored⟩ := h
  dsimp only at hfetch hsplit hstored
  rw [unread_cons hlen] at hsplit
  have hne : rl.buf.getD rl.next 0 ≠ LF := by
    intro hc
    refine hLF ?_
    rw [← hsplit, hc]
    exact List.mem_append_right _ List.mem_cons_self
  refine ⟨_, if_neg hne, ⟨seen ++ [rl.buf.getD rl.next 0], ahead, hfetch, ?_, ?_⟩, left_advance hlen⟩
  · rw [List.append_assoc]
    exact hsplit
  · dsimp only
    rw [hstored, take_store]

/-- A round: another character, or the interrupted read. -/
theorem Emptying.round (h : Emptying n all src t) (hLF : LF ∉ all)
    (hscript : src.script = .interrupted :: script) :
    (∃ t', readLineBufRound n t = .again t' ∧ Emptying n all src t' ∧ left t' < left t) ∨
      ∃ rl', readLineBufRound n t = .leave (⟨-1, all.take n⟩, rl') ∧ rl'.stream = src.input ∧
        rl'.src.script = script := by
  obtain ⟨buffer, rl⟩ := t
  unfold readLineBufRound
  dsimp only
  by_cases hlen : rl.len ≤ rl.next
  · rw [if_pos hlen]
    have hunread : rl.unread = [] := if_pos hlen
    obtain ⟨seen, ahead, hfetch, hsplit, hstored⟩ := h
    dsimp only at hfetch hsplit hstored
    rw [hunread, List.nil_append] at hsplit
    cases hfetch with
    | none =>
      have hread : rl.src.read RL_MAX_BUF = (.interrupted, ⟨rl.src.input, script⟩) := by
        rw [Source.read, hscript]
      rw [List.append_nil] at hsplit
      rw [hread, ← hsplit, ← hstored]
      refine Or.inr ⟨_, rfl, ?_, rfl⟩
      rw [ReadLineBuf.stream, unread_nothing]
      rfl
    | @more _ src' _ c cs bytes hread hmore =>
      rw [hread]
      have hfull : Emptying n all src (buffer, .full (c :: cs) src') := by
        refine ⟨seen, bytes, hmore, ?_, hstored⟩
        dsimp only
        rw [unread_full]
        exact hsplit
      obtain ⟨t', hs, ht', hlt⟩ := hfull.takeChar (full_not_le cs src') hLF
      exact Or.inl ⟨t', hs, ht', Nat.lt_of_lt_of_le hlt (left_full hread)⟩
  · rw [if_neg hlen]
    exact Or.inl (h.takeChar hlen hLF)

/-- **An interrupted read** makes `readLineBuf` return -1, whether it is the first read of the call or
    comes after others, and the bytes of the line it has taken, those of the buffer and those it
    has just read, are not returned by any later call. -/
theorem readLineBuf_interrupted (hfetch : Fetches rl.src bytes src) (hLF : LF ∉ rl.unread ++ bytes)
    (hn : n ≠ 0) (hscript : src.script = .interrupted :: script) :
    ∃ rl', readLineBuf n rl = some (⟨-1, (rl.unread ++ bytes).take n⟩, rl') ∧ rl'.stream = src.input
      ∧ rl'.src.script = script := by
  have hstart : Emptying n (rl.unread ++ bytes) src ([], rl) :=
    ⟨[], bytes, hfetch, rfl, List.take_nil.symm⟩
  have hagain : ∀ t t', Emptying n (rl.unread ++ bytes) src t → readLineBufRound n t = .again t' →
      Emptying n (rl.unread ++ bytes) src t' ∧ left t' < left t := by
    intro t t' ht hs
    rcases ht.round hLF hscript with ⟨t'', hs', hnext⟩ | ⟨rl', hs', -⟩
    · rw [hs] at hs'
      cases hs'
      exact hnext
    · nomatch hs.symm.trans hs'
  obtain ⟨r, t, hr, ht, hleave⟩ := loopN_total (μ := left) hagain hstart
    (Nat.lt_succ_self (rl.unread.length + rl.src.size))
  rcases ht.round hLF hscript with ⟨t', hs, -⟩ | ⟨rl', hs, hstream, hrest⟩
  · nomatch hleave.symm.trans hs
  · rw [hleave] at hs
    cases hs
    refine ⟨rl', ?_, hstream, hrest⟩
    rw [readLineBuf, if_neg hn]
    exact hr

end Interrupted

/-- The `a` of `abc` was in the buffer and `b` has just been read: both are lost. -/
theorem readLineBuf_interrupted_twoBytes :
    ∃ rl', readLineBuf 4 (.full [97] ⟨[98, 99, LF], [.upTo 1, .interrupted]⟩) = some (⟨-1, [97, 98]⟩, rl')
      ∧ rl'.stream = [99, LF] := by
  have hfetch : Fetches (ReadLineBuf.full [97] ⟨[98, 99, LF], [.upTo 1, .interrupted]⟩).src [98]
      ⟨[99, LF], [.interrupted]⟩ := @Fetches.more _ _ _ 98 [] [] rfl .none
  obtain ⟨rl', hr, hstream, -⟩ := readLineBuf_interrupted (n := 4) hfetch (by decide) (by decide) rfl
  exact ⟨rl', hr, hstream⟩

/-! ## Any number of calls -/

/-- What the caller of a function sees. -/
def Line.answer (r : Line) : Int × List UInt8 := (r.ret, r.text)

/-- The `i`-th line of the input, in the room there is. -/
def nthLine (n : Nat) (input : List UInt8) (i : Nat) : Int × List UInt8 :=
  ((((lines LF input).getD i []).take n).length, ((lines LF input).getD i []).take n)

/-- The next line of a text, in the room there is, and the rest of the text. -/
def lineOut (n : Nat) (s : List UInt8) : Int × List UInt8 :=
  (((firstLine LF s).take n).length, (firstLine LF s).take n)

def lineNext (s : List UInt8) : List UInt8 := s.drop (firstLine LF s).length

theorem nthLine_eq (n : Nat) (input : List UInt8) (i : Nat) :
    nthLine n input i = lineOut n (lineNext^[i] input) := by
  have hline : (lines LF input).getD i [] = firstLine LF (lineNext^[i] input) := getD_lines LF input i
  rw [nthLine, hline, lineOut]

/-- The calls of `readLine` return the lines one after the other. -/
theorem calls_readLine (n k : Nat) {src : Source} (h : .failed ∉ src.script) :
    (calls (readLine (n + 1)) k src).map (List.map Line.answer)
      = some ((List.range k).map (nthLine n src.input)) := by
  have hcall : ∀ src : Source, .failed ∉ src.script → ∃ r src', readLine (n + 1) src = some (r, src') ∧
      .failed ∉ src'.script ∧ r.answer = lineOut n src.input ∧ src'.input = lineNext src.input := by
    intro src hsrc
    obtain ⟨r, src', hr, hline, -, -, hscript⟩ := readLine_spec (Nat.succ_ne_zero n) src
    rcases hline with hgets | ⟨-, hfailed⟩
    · exact ⟨r, src', hr, fun hmem => hsrc (hscript _ hmem), Prod.ext hgets.ret hgets.text, hgets.rest⟩
    · exact absurd hfailed hsrc
  simp only [funext (nthLine_eq n src.input)]
  exact calls_simulate (fun src => .failed ∉ src.script) Source.input (lineOut n) lineNext hcall k h

/-- So do those of `readLineBuf`. -/
theorem calls_readLineBuf {n : Nat} (hn : n ≠ 0) (k : Nat) {rl : ReadLineBuf}
    (h : .failed ∉ rl.src.script ∧ .interrupted ∉ rl.src.script) :
    (calls (readLineBuf n) k rl).map (List.map Line.answer)
      = some ((List.range k).map (nthLine n rl.stream)) := by
  have hcall : ∀ rl : ReadLineBuf, .failed ∉ rl.src.script ∧ .interrupted ∉ rl.src.script →
      ∃ r rl', readLineBuf n rl = some (r, rl') ∧
        (.failed ∉ rl'.src.script ∧ .interrupted ∉ rl'.src.script) ∧ r.answer = lineOut n rl.stream ∧
          rl'.stream = lineNext rl.stream := by
    intro rl hrl
    obtain ⟨r, rl', hr, hline, -, hscript⟩ := readLineBuf_spec hn rl
    rcases hline with hgets | ⟨-, hfailed | hinterrupted⟩
    · exact ⟨r, rl', hr, ⟨fun hmem => hrl.1 (hscript _ hmem), fun hmem => hrl.2 (hscript _ hmem)⟩,
        Prod.ext hgets.ret hgets.text, hgets.rest⟩
    · exact absurd hfailed hrl.1
    · exact absurd hinterrupted hrl.2
  simp only [funext (nthLine_eq n rl.stream)]
  exact calls_simulate (fun rl => .failed ∉ rl.src.script ∧ .interrupted ∉ rl.src.script)
    ReadLineBuf.stream (lineOut n) lineNext hcall k h

/-- **The buffered function agrees with the plain one**: over any number of calls, however the input
    arrives for either of them, `readLineBuf` with room for `n` bytes returns what `readLine` returns
    with room for `n + 1`, and that is the input line by line. -/
theorem readLineBuf_agrees {n : Nat} (hn : n ≠ 0) (k : Nat) (input : List UInt8) {plain buffered : List Answer}
    (hplain : .failed ∉ plain) (hbuffered : .failed ∉ buffered ∧ .interrupted ∉ buffered) :
    (calls (readLineBuf n) k (readLineBufInit ⟨input, buffered⟩)).map (List.map Line.answer)
        = (calls (readLine (n + 1)) k ⟨input, plain⟩).map (List.map Line.answer)
      ∧ (calls (readLine (n + 1)) k ⟨input, plain⟩).map (List.map Line.answer)
        = some ((List.range k).map (nthLine n input)) := by
  have hread : (calls (readLine (n + 1)) k ⟨input, plain⟩).map (List.map Line.answer)
      = some ((List.range k).map (nthLine n input)) := calls_readLine n k hplain
  have hbuf : (calls (readLineBuf n) k (readLineBufInit ⟨input, buffered⟩)).map (List.map Line.answer)
      = some ((List.range k).map (nthLine n input)) := calls_readLineBuf hn k hbuffered
  exact ⟨hbuf.trans hread.symm, hread⟩

/-- Two lines, the first too long, in pieces of three and of one. -/
theorem readLineBuf_agrees_twoLines :
    (calls (readLineBuf 4) 3 (readLineBufInit ⟨[97, 98, 99, 100, 101, LF, 102], [.upTo 3, .upTo 3]⟩)).map
        (List.map Line.answer)
      = (calls (readLine 5) 3 ⟨[97, 98, 99, 100, 101, LF, 102], [.interrupted]⟩).map (List.map Line.answer) :=
  (readLineBuf_agrees (by decide) 3 _ (by decide) (by decide)).1

end LinuxInterface.ReadLine
