/-
  ch12/2_pstree.c: `read_processes`, which fills the table of processes from `/proc`.

  1. **The program** — for every entry of `/proc` whose name begins with a digit, the status file is
     read piece by piece; a piece with a `PPid:` sets the `ppid`, one with a `Name:` the `name`
     (`readLine`).  Whatever was found is stored.  The local `proc` is not initialised, so that what
     was not found is what lay on the stack (`junk`).

  2. **Status files** — as the kernel writes them (`Status`), but cut off anywhere
     (`Reading`): the process may be gone before the file has been read.

  3. **One process** — what is stored is what the file says, whatever lay on the stack, iff the file
     was read up to the end of the `PPid:` number and the name is a word: `%s` skips white space and
     stops at it (`Reading.Complete.view`, `complete_of_view`).

  4. **The scan** — and the table is `/proc` as it was read iff that holds of every process and they
     are not more than there is room for (`readProcesses_faithful_iff`).
-/
import LinuxInterface.Base.ProcDir
import LinuxInterface.Base.Scanf
import LinuxInterface.Base.Stdio

namespace LinuxInterface.PsTree

open LinuxInterface

/-! ## The program -/

def MAX_PROCESSES : Nat := 1024

/-- `name` is all that is in the array. -/
structure Process where
  pid : Int
  ppid : Int
  name : List UInt8
  deriving DecidableEq

/-- The string in `name`. -/
def Process.text (p : Process) : List UInt8 := cstring p.name

/-- What ends a run that does not return: an access outside the array, or a recursion that goes
    deeper than was asked for. -/
inductive Stop where
  | outside (i : Nat)
  | depth
  deriving DecidableEq

/-- `"PPid:"`. -/
def ppidKey : List UInt8 := ascii ['P', 'P', 'i', 'd', ':']

/-- `"PPid:\t%d"`. -/
def ppidFormat : List Directive := ppidKey.map .byte ++ [.space, .int]

/-- `"Name:\t%s"`. -/
def nameFormat : List Directive := nameKey.map .byte ++ [.space, .word]

/-- What `%s` makes of an array. -/
def storeWord (w array : List UInt8) : List UInt8 := w ++ 0 :: array.drop (w.length + 1)

/-- A round of the loop over the status file. -/
def readLine (proc : Process) (line : List UInt8) : Process :=
  match sscanf ppidFormat (cstring line) with
  | [.int v] => { proc with ppid := v }
  -- the second call is made for every other line, and its result is not looked at
  | _ =>
    match sscanf nameFormat (cstring line) with
    | [.word w] => { proc with name := storeWord w proc.name }
    | _ => proc

/-- The loop, with `char line[256]`. -/
def readStatus (proc : Process) (text : List UInt8) : Process := (pieces 256 text).foldl readLine proc

/-! ## Status files -/

/-- The status file of a process: its name and its parent, and what is in other lines.  The kernel
    writes a newline in a name in another way, and names are short enough for `char name[128]`. -/
structure Status where
  name : List UInt8
  ppid : Nat
  between : List UInt8
  after : List UInt8
  name_line : LF ∉ name
  name_string : 0 ∉ name
  name_fits : name.length < 128
  ppid_int : ppid < 2 ^ 31
  between_lines : between = [] ∨ between.getLast? = some LF
  others : ∀ line ∈ pieces 256 between ++ pieces 256 after,
    ¬ppidKey <+: line ∧ ¬nameKey <+: line

namespace Status

variable (s : Status)

/-- The `Name:` line. -/
def nameLine : List UInt8 := nameKey ++ TAB :: (s.name ++ [LF])

/-- The `PPid:` line, without its newline. -/
def ppidLine : List UInt8 := ppidKey ++ TAB :: decimal s.ppid

/-- What is in front of the `PPid:` line. -/
def front : List UInt8 := s.nameLine ++ s.between

def text : List UInt8 := s.front ++ (s.ppidLine ++ LF :: s.after)

end Status

/-- What can be read of a status file: its first `cut` bytes. -/
structure Reading where
  status : Status
  cut : Nat

def Reading.text (r : Reading) : List UInt8 := r.status.text.take r.cut

/-- The file was read up to the end of the number of the parent, and the name is a word. -/
structure Reading.Complete (r : Reading) : Prop where
  ppid : (r.status.front ++ r.status.ppidLine).length ≤ r.cut
  nonempty : r.status.name ≠ []
  word : ∀ c ∈ r.status.name, isspace c = false

/-! ## One process -/

section

variable {proc : Process} {line : List UInt8} {ps : List (List UInt8)}

/-- What an entry shows of a process. -/
def Process.view (p : Process) : Int × Int × List UInt8 := (p.pid, p.ppid, p.text)

theorem readLine_of_ppid {v : Int} (h : sscanf ppidFormat (cstring line) = [.int v]) :
    readLine proc line = { proc with ppid := v } := by
  unfold readLine
  rw [h]

theorem readLine_of_name (hp : sscanf ppidFormat (cstring line) = []) {w : List UInt8}
    (hn : sscanf nameFormat (cstring line) = [.word w]) :
    readLine proc line = { proc with name := storeWord w proc.name } := by
  unfold readLine
  rw [hp]
  dsimp only
  rw [hn]

theorem readLine_of_neither (hp : sscanf ppidFormat (cstring line) = [])
    (hn : sscanf nameFormat (cstring line) = []) : readLine proc line = proc := by
  unfold readLine
  rw [hp]
  dsimp only
  rw [hn]

theorem ppidFormat_missing (h : ¬ppidKey <+: line) : sscanf ppidFormat (cstring line) = [] :=
  sscanf_bytes_missing fun hpre => h (hpre.trans (cstring_isPrefix line))

theorem nameFormat_missing (h : ¬nameKey <+: line) : sscanf nameFormat (cstring line) = [] :=
  sscanf_bytes_missing fun hpre => h (hpre.trans (cstring_isPrefix line))

/-- A line that does not begin with `PPid:` leaves `ppid` alone. -/
theorem readLine_ppid (h : ¬ppidKey <+: line) :
    (readLine proc line).ppid = proc.ppid := by
  unfold readLine
  rw [ppidFormat_missing h]
  dsimp only
  split <;> rfl

/-- A line that does not begin with `Name:` either leaves all of it. -/
theorem readLine_other (hp : ¬ppidKey <+: line)
    (hn : ¬nameKey <+: line) : readLine proc line = proc :=
  readLine_of_neither (ppidFormat_missing hp) (nameFormat_missing hn)

theorem foldl_readLine_ppid (h : ∀ line ∈ ps, ¬ppidKey <+: line) :
    (ps.foldl readLine proc).ppid = proc.ppid := by
  induction ps generalizing proc with
  | nil => rfl
  | cons line ps ih =>
    rw [List.foldl_cons, ih fun l hl => h l (List.mem_cons_of_mem _ hl),
      readLine_ppid (h line List.mem_cons_self)]

theorem foldl_readLine_other
    (h : ∀ line ∈ ps, ¬ppidKey <+: line ∧
      ¬nameKey <+: line) : ps.foldl readLine proc = proc := by
  induction ps generalizing proc with
  | nil => rfl
  | cons line ps ih =>
    have hline := h line List.mem_cons_self
    rw [List.foldl_cons, readLine_other hline.1 hline.2,
      ih fun l hl => h l (List.mem_cons_of_mem _ hl)]

/-- What the `Name:` line does: the first word of the name is stored, if there is one. -/
theorem readLine_nameLine (s : Status) : readLine proc s.nameLine =
    if firstWord (s.name ++ [LF]) = [] then proc
    else { proc with name := storeWord (firstWord (s.name ++ [LF])) proc.name } := by
  have hzero : 0 ∉ s.nameLine :=
    not_mem_field (by decide) (by decide)
      (List.not_mem_append s.name_string (by decide))
  have hppid : ¬ppidKey <+: s.nameLine := by
    rintro ⟨t, ht⟩
    exact absurd (List.cons.inj ht).1 (by decide)
  have hname : sscanf nameFormat (cstring s.nameLine) =
      if firstWord (s.name ++ [LF]) = [] then [] else [.word (firstWord (s.name ++ [LF]))] := by
    rw [cstring_eq_self.mpr hzero, nameFormat, Status.nameLine, sscanf_bytes, sscanf_word,
      ← List.singleton_append, firstWord_append (List.forall_mem_singleton.mpr rfl)]
  by_cases hw : firstWord (s.name ++ [LF]) = []
  · rw [if_pos hw] at hname ⊢
    exact readLine_of_neither (ppidFormat_missing hppid) hname
  · rw [if_neg hw] at hname ⊢
    exact readLine_of_name (ppidFormat_missing hppid) hname

/-- What digits behind `PPid:` do. -/
theorem readLine_digits (proc : Process) {ds tail : List UInt8}
    (hds : ∀ c ∈ ds, isdigit c = true) (hne : ds ≠ []) (htail : tail = [] ∨ tail = [LF]) :
    readLine proc (ppidKey ++ TAB :: (ds ++ tail)) = { proc with ppid := value ds } := by
  have hzero : 0 ∉ ppidKey ++ TAB :: (ds ++ tail) := by
    refine not_mem_field (by decide) (by decide) (List.not_mem_append ?_ ?_)
    · exact fun h => absurd (hds 0 h) (by decide)
    · rcases htail with rfl | rfl
      · exact List.not_mem_nil
      · decide
  have hend : ∀ c ∈ tail.head?, isdigit c = false := by
    rcases htail with rfl | rfl
    · exact fun c hc => nomatch hc
    · exact fun c hc => Option.some.inj hc ▸ rfl
  have hint : sscanf [.space, .int] (TAB :: (ds ++ tail)) = [.int (value ds)] :=
    sscanf_int (w := [TAB]) (List.forall_mem_singleton.mpr rfl) hds hne hend
  apply readLine_of_ppid
  rw [cstring_eq_self.mpr hzero, ppidFormat, sscanf_bytes, hint]

/-- What a number of the parent that is cut off does: if any of its digits are there, they make
    another number. -/
theorem readLine_ppidLine_cut (s : Status) {j : Nat} (hj : j < s.ppidLine.length) :
    (readLine proc (s.ppidLine.take j)).ppid = proc.ppid ∨
      (readLine proc (s.ppidLine.take j)).ppid < s.ppid := by
  have hsplit : s.ppidLine = (ppidKey ++ [TAB]) ++ decimal s.ppid := by
    simp [Status.ppidLine]
  by_cases hj6 : j ≤ 6
  · -- no digit is left, and `%d` fails
    left
    have hnone : ∀ j ≤ 6, sscanf ppidFormat (cstring ((ppidKey ++ [TAB]).take j)) = [] ∧
        sscanf nameFormat (cstring ((ppidKey ++ [TAB]).take j)) = [] := by
      decide
    have htake : s.ppidLine.take j = (ppidKey ++ [TAB]).take j := by
      rw [hsplit]
      exact List.take_append_of_le_length hj6
    rw [htake, readLine_of_neither (hnone j hj6).1 (hnone j hj6).2]
  · -- the first `k + 1` digits are left, but not all of them
    right
    obtain ⟨k, rfl⟩ := Nat.exists_eq_add_of_lt (Nat.lt_of_not_le hj6)
    have htake : s.ppidLine.take (6 + k + 1) =
        ppidKey ++ TAB :: ((decimal s.ppid).take (k + 1) ++ []) := by
      have hkey : 6 + k + 1 = (ppidKey ++ [TAB]).length + (k + 1) := Nat.add_assoc 6 k 1
      rw [hsplit, hkey, List.take_length_add_append, List.append_nil, List.append_assoc]
      rfl
    have hlen : s.ppidLine.length = 6 + (decimal s.ppid).length := by
      rw [hsplit, List.length_append]
      rfl
    have hk : ((decimal s.ppid).take (k + 1)).length = k + 1 := by
      rw [List.length_take]
      omega
    have hne : (decimal s.ppid).take (k + 1) ≠ [] := by
      intro h
      rw [h] at hk
      nomatch hk
    have hcut : (decimal s.ppid).take (k + 1) ≠ decimal s.ppid := by
      intro h
      rw [h] at hk
      omega
    rw [htake, readLine_digits proc (fun c hc => isdigit_of_mem_decimal (List.mem_of_mem_take hc)) hne
      (.inl rfl)]
    exact Int.ofNat_lt.mpr (value_of_cut (List.take_prefix _ _) hcut hne)

end

section

variable {proc : Process} (s : Status) (r : Reading)

theorem Status.front_lines : s.front = [] ∨ s.front.getLast? = some LF := by
  right
  show (s.nameLine ++ s.between).getLast? = some LF
  rcases s.between_lines with h | h
  · have hname : s.nameLine = (nameKey ++ TAB :: s.name) ++ [LF] := by simp [Status.nameLine]
    rw [h, List.append_nil, hname, List.getLast?_concat]
  · rw [List.getLast?_append, h]
    rfl

theorem Status.pieces_front : pieces 256 s.front = s.nameLine :: pieces 256 s.between := by
  have hfits := s.name_fits
  have hfront : s.front = nameKey ++ TAB :: (s.name ++ LF :: s.between) := by
    simp [Status.front, Status.nameLine]
  have hlen : nameKey.length + s.name.length + 2 < 256 := by
    show 5 + s.name.length + 2 < 256
    omega
  rw [hfront, pieces_field (by decide) s.name_line hlen]
  rfl

theorem Status.ppidLine_fits : LF ∉ s.ppidLine ∧ s.ppidLine.length + 1 < 256 := by
  constructor
  · exact not_mem_field (by decide) (by decide) (not_mem_decimal (by decide) s.ppid)
  · have hlen := length_decimal (by omega : 0 < 10) (Nat.lt_trans s.ppid_int (by decide))
    show (ppidKey ++ TAB :: decimal s.ppid).length + 1 < 256
    rw [List.length_append, List.length_cons]
    show 5 + ((decimal s.ppid).length + 1) + 1 < 256
    omega

/-- No piece of the front is a `PPid:` line. -/
theorem Status.front_noPpid {line : List UInt8} (h : line ∈ pieces 256 s.front) :
    ¬ppidKey <+: line := by
  rw [s.pieces_front] at h
  rcases List.mem_cons.mp h with rfl | h
  · rintro ⟨t, ht⟩
    exact absurd (List.cons.inj ht).1 (by decide)
  · exact (s.others line (List.mem_append_left _ h)).1

/-- The front gives what the `Name:` line gives. -/
theorem foldl_front : (pieces 256 s.front).foldl readLine proc = readLine proc s.nameLine := by
  rw [s.pieces_front, List.foldl_cons]
  apply foldl_readLine_other
  intro line hmem
  exact s.others line (List.mem_append_left _ hmem)

theorem readLine_ppidLine (proc : Process) {tail : List UInt8} (htail : tail = [] ∨ tail = [LF]) :
    readLine proc (s.ppidLine ++ tail) = { proc with ppid := s.ppid } := by
  have h := readLine_digits proc (fun c => isdigit_of_mem_decimal) (decimal_ne_nil s.ppid) htail
  rw [value_decimal] at h
  rw [← h]
  simp [Status.ppidLine]

/-- Read as far as the end of the number, the file gives the parent and what the `Name:` line
    gives. -/
theorem readStatus_complete (h : (r.status.front ++ r.status.ppidLine).length ≤ r.cut) :
    readStatus proc r.text = { readLine proc r.status.nameLine with ppid := r.status.ppid } := by
  have hline := r.status.ppidLine_fits
  obtain ⟨j, hj⟩ := Nat.exists_eq_add_of_le h
  have htext : r.text = r.status.front ++ (r.status.ppidLine ++ (LF :: r.status.after).take j) := by
    show (r.status.front ++ (r.status.ppidLine ++ LF :: r.status.after)).take r.cut = _
    rw [← List.append_assoc, hj, List.take_length_add_append, List.append_assoc]
  show (pieces 256 r.text).foldl readLine proc = _
  rw [htext, pieces_append (by decide) r.status.front_lines, List.foldl_append, foldl_front]
  cases j with
  | zero =>
    -- the file ends right behind the number
    have hne : r.status.ppidLine ≠ [] := by simp [Status.ppidLine]
    rw [List.take_zero, List.append_nil, pieces_last hline.1 hne (by omega), List.foldl_cons]
    have hread := readLine_ppidLine r.status (readLine proc r.status.nameLine) (.inl rfl)
    rw [List.append_nil] at hread
    exact hread
  | succ j =>
    rw [List.take_succ_cons, pieces_line hline.1 hline.2, List.foldl_cons,
      readLine_ppidLine _ _ (.inr rfl)]
    apply foldl_readLine_other
    intro line hmem
    obtain ⟨q, hq, hpre⟩ := exists_piece_of_take (by decide) j hmem
    have hother := r.status.others q (List.mem_append_right _ hq)
    exact ⟨fun h => hother.1 (h.trans hpre), fun h => hother.2 (h.trans hpre)⟩

/-- Read less far, it gives no parent, or not the right one. -/
theorem readStatus_cut (proc : Process) (h : r.cut < (r.status.front ++ r.status.ppidLine).length) :
    (readStatus proc r.text).ppid = proc.ppid ∨
      (readStatus proc r.text).ppid < r.status.ppid := by
  have hline := r.status.ppidLine_fits
  rw [List.length_append] at h
  show ((pieces 256 (r.status.text.take r.cut)).foldl readLine proc).ppid = _ ∨ _
  by_cases hfront : r.cut ≤ r.status.front.length
  · -- the file ends in front of the `PPid:` line
    left
    have htext : r.status.text.take r.cut = r.status.front.take r.cut :=
      List.take_append_of_le_length hfront
    rw [htext]
    apply foldl_readLine_ppid
    intro line hmem hpre
    obtain ⟨q, hq, hlq⟩ := exists_piece_of_take (by decide) r.cut hmem
    exact r.status.front_noPpid hq (hpre.trans hlq)
  · -- it ends in the `PPid:` line, which is the last piece
    obtain ⟨j, hj⟩ := Nat.exists_eq_add_of_le (Nat.le_of_not_le hfront)
    have htext : r.status.text.take r.cut = r.status.front ++ r.status.ppidLine.take j := by
      show (r.status.front ++ (r.status.ppidLine ++ LF :: r.status.after)).take r.cut = _
      rw [hj, List.take_length_add_append, List.take_append_of_le_length (by omega)]
    have hlf : LF ∉ r.status.ppidLine.take j := fun hmem => hline.1 (List.mem_of_mem_take hmem)
    have hlen : (r.status.ppidLine.take j).length = j := by
      rw [List.length_take]
      omega
    have hne : r.status.ppidLine.take j ≠ [] := by
      intro h0
      rw [h0] at hlen
      have : j = 0 := hlen.symm
      omega
    have hname : (readLine proc r.status.nameLine).ppid = proc.ppid := by
      rw [← foldl_front]
      exact foldl_readLine_ppid fun line => r.status.front_noPpid
    unfold readStatus Reading.text
    rw [htext, pieces_append (by decide) r.status.front_lines, List.foldl_append, foldl_front,
      pieces_last hlf hne (by omega), List.foldl_cons, ← hname]
    exact readLine_ppidLine_cut _ (by omega)

/-- What an entry is to say of a process. -/
def expected (pid : Nat) (s : Status) : Int × Int × List UInt8 := (pid, s.ppid, s.name)

theorem cstring_storeWord {w array : List UInt8} (h : 0 ∉ w) : cstring (storeWord w array) = w := by
  show (w ++ 0 :: array.drop (w.length + 1)).takeWhile _ = w
  rw [List.takeWhile_append_of_pos]
  · simp
  · intro c hc
    exact decide_eq_true fun h0 => h (h0 ▸ hc)

theorem readLine_pid (proc : Process) (line : List UInt8) :
    (readLine proc line).pid = proc.pid := by
  unfold readLine
  split
  · rfl
  · split <;> rfl

theorem readStatus_pid (proc : Process) (text : List UInt8) :
    (readStatus proc text).pid = proc.pid := by
  show ((pieces 256 text).foldl readLine proc).pid = proc.pid
  induction pieces 256 text generalizing proc with
  | nil => rfl
  | cons line ps ih => rw [List.foldl_cons, ih, readLine_pid]

/-- A name that is a word is stored as it is. -/
theorem text_of_word (hne : s.name ≠ []) (hword : ∀ c ∈ s.name, isspace c = false) :
    (readLine proc s.nameLine).text = s.name := by
  have hfirst : firstWord (s.name ++ [LF]) = s.name :=
    firstWord_word hne hword fun c hc => Option.some.inj hc ▸ rfl
  rw [readLine_nameLine, hfirst, if_neg hne]
  exact cstring_storeWord s.name_string

/-- A name that is stored as it is, is a word. -/
theorem word_of_text (hjunk : proc.text ≠ s.name) (h : (readLine proc s.nameLine).text = s.name) :
    s.name ≠ [] ∧ ∀ c ∈ s.name, isspace c = false := by
  rw [readLine_nameLine] at h
  by_cases hw : firstWord (s.name ++ [LF]) = []
  · rw [if_pos hw] at h
    exact absurd h hjunk
  · rw [if_neg hw] at h
    have hzero : 0 ∉ firstWord (s.name ++ [LF]) := by
      intro h0
      have hmem := List.dropWhile_subset _ (List.takeWhile_subset _ h0)
      rcases List.mem_append.mp hmem with h0 | h0
      · exact s.name_string h0
      · exact absurd h0 (by decide)
    have hfirst : firstWord (s.name ++ [LF]) = s.name := (cstring_storeWord hzero).symm.trans h
    constructor
    · rw [← hfirst]
      exact hw
    · intro c hc
      rw [← hfirst] at hc
      exact isspace_of_mem_firstWord hc

/-- A complete file gives an entry that says what it is to say. -/
theorem Reading.Complete.view {r : Reading} (h : r.Complete) {pid : Nat} (hpid : proc.pid = pid) :
    (readStatus proc r.text).view = expected pid r.status := by
  show ((readStatus proc r.text).pid, (readStatus proc r.text).ppid,
    (readStatus proc r.text).text) = _
  rw [readStatus_pid, hpid, readStatus_complete r h.ppid]
  show ((pid : Int), (r.status.ppid : Int), (readLine proc r.status.nameLine).text) = _
  rw [text_of_word r.status h.nonempty h.word]
  rfl

/-- And only a complete file does, unless what lay on the stack happens to be right. -/
theorem complete_of_view {pid : Nat} (hppid : proc.ppid ≠ r.status.ppid)
    (hname : proc.text ≠ r.status.name)
    (h : (readStatus proc r.text).view = expected pid r.status) : r.Complete := by
  have hview : (readStatus proc r.text).ppid = r.status.ppid ∧
      (readStatus proc r.text).text = r.status.name := Prod.mk.inj (Prod.mk.inj h).2
  have hcut : (r.status.front ++ r.status.ppidLine).length ≤ r.cut := by
    by_contra hlt
    rcases readStatus_cut r proc (Nat.lt_of_not_le hlt) with h0 | h0
    · exact hppid (h0.symm.trans hview.1)
    · rw [hview.1] at h0
      exact absurd h0 (Int.lt_irrefl _)
  rw [readStatus_complete r hcut] at hview
  obtain ⟨hne, hword⟩ := word_of_text r.status hname hview.2
  exact ⟨hcut, hne, hword⟩

end

/-! ## The scan -/

section

variable (maxProcesses : Nat) (junk : Nat → Process)

/-- `processes[process_count++] = proc`, in an array of `maxProcesses`. -/
def store (t : List Process) (proc : Process) : Except Stop (List Process) :=
  if t.length < maxProcesses then .ok (t ++ [proc]) else .error (.outside t.length)

/-- A round of the loop over `/proc`. -/
def readEntry (t : List Process) (ent : ProcEntry Reading) : Except Stop (List Process) :=
  if isdigit (ent.dName.headD 0) then
    -- `fopen("/proc/…/status", "r")`
    match ent.file with
    | some r =>
      -- stored in any case, with whatever the lines have set
      store maxProcesses t (readStatus { junk t.length with pid := atoi ent.dName } r.text)
    | none => .ok t
  else .ok t

/-- `read_processes()`, with what `opendir("/proc")` and `readdir` find. -/
def readProcesses (dir : Option (List (ProcEntry Reading))) : Except Stop (List Process) :=
  match dir with
  | some dir => dir.foldlM (readEntry maxProcesses junk) []
  | none => .ok []

/-- What is recorded of the processes that could be opened, from the index `i` on. -/
def record : Nat → List (Nat × Reading) → List Process
  | _, [] => []
  | i, (pid, r) :: os => readStatus { junk i with pid := pid } r.text :: record (i + 1) os

variable {maxProcesses junk} {t : List Process}

/-- Only what could be opened matters. -/
theorem readEntry_eq (t : List Process) (ent : ProcEntry Reading) :
    readEntry maxProcesses junk t ent =
      match ent.opened with
      | some o => store maxProcesses t (readStatus { junk t.length with pid := o.1 } o.2.text)
      | none => .ok t := by
  unfold readEntry
  cases hent : ent.opened with
  | none =>
    rcases ProcEntry.skipped_of_not_opened hent with hdigit | hfile
    · exact if_neg (Bool.eq_false_iff.mp hdigit)
    · rw [hfile]
      exact ite_self _
  | some o =>
    obtain ⟨hdigit, hname, hfile, hint⟩ := ProcEntry.found_of_opened hent
    rw [if_pos hdigit, hfile, hname, atoi_decimal hint]

/-- The loop over `/proc`: it records the processes it can open, as long as there is room. -/
theorem foldlM_store (junk : Nat → Process) (os : List (Nat × Reading))
    (ht : t.length ≤ maxProcesses) :
    os.foldlM (fun t o =>
        store maxProcesses t (readStatus { junk t.length with pid := o.1 } o.2.text)) t =
      if t.length + os.length ≤ maxProcesses then .ok (t ++ record junk t.length os)
      else .error (.outside maxProcesses) := by
  induction os generalizing t with
  | nil =>
    show Except.ok t = if t.length ≤ maxProcesses then .ok (t ++ []) else _
    rw [if_pos ht, List.append_nil]
  | cons o os ih =>
    rw [List.foldlM_cons, List.length_cons]
    by_cases hroom : t.length < maxProcesses
    · rw [store, if_pos hroom]
      refine (ih ?_).trans ?_
      · rw [List.length_append]
        exact hroom
      · rw [List.length_append, List.length_singleton, record, List.append_assoc,
          Nat.add_assoc, Nat.add_comm 1]
        rfl
    · obtain rfl : t.length = maxProcesses := Nat.le_antisymm ht (Nat.le_of_not_lt hroom)
      rw [store, if_neg hroom, if_neg (by omega)]
      rfl

theorem readProcesses_eq (maxProcesses : Nat) (junk : Nat → Process) (dir : List (ProcEntry Reading)) :
    readProcesses maxProcesses junk (some dir) =
      if (dir.filterMap ProcEntry.opened).length ≤ maxProcesses then
        .ok (record junk 0 (dir.filterMap ProcEntry.opened))
      else .error (.outside maxProcesses) := by
  have hloop := foldlM_store junk (dir.filterMap ProcEntry.opened) (t := [])
    (Nat.zero_le maxProcesses)
  rw [List.length_nil, Nat.zero_add, List.nil_append, List.foldlM_filterMap] at hloop
  rw [← hloop]
  show dir.foldlM (readEntry maxProcesses junk) [] = _
  congr 1
  funext t ent
  rw [readEntry_eq]
  cases ent.opened <;> rfl

/-- It succeeds iff there is room for all of them. -/
theorem readProcesses_ok_iff {maxProcesses : Nat} {junk : Nat → Process}
    {dir : List (ProcEntry Reading)} {t : List Process} :
    readProcesses maxProcesses junk (some dir) = .ok t ↔
      (dir.filterMap ProcEntry.opened).length ≤ maxProcesses ∧
        t = record junk 0 (dir.filterMap ProcEntry.opened) := by
  rw [readProcesses_eq]
  by_cases hroom : (dir.filterMap ProcEntry.opened).length ≤ maxProcesses
  · rw [if_pos hroom, Except.ok.injEq]
    exact ⟨fun h => ⟨hroom, h.symm⟩, fun h => h.2.symm⟩
  · rw [if_neg hroom]
    exact ⟨fun h => (nomatch h), fun h => absurd h.1 hroom⟩

theorem record_complete {os : List (Nat × Reading)} (h : ∀ o ∈ os, o.2.Complete) (i : Nat) :
    (record junk i os).map Process.view = os.map fun o => expected o.1 o.2.status := by
  induction os generalizing i with
  | nil => rfl
  | cons o os ih =>
    have ho := h o List.mem_cons_self
    rw [record, List.map_cons, List.map_cons, ho.view rfl,
      ih fun x hx => h x (List.mem_cons_of_mem _ hx)]

/-- What lies on the stack is right for no process: no parent has this number, and no name is this
    long. -/
def wrong : Process := ⟨0, -1, List.replicate 128 1⟩

theorem wrong_text (s : Status) : wrong.text ≠ s.name := by
  intro h
  have hlen : 128 = s.name.length := congrArg List.length h
  have hfits := s.name_fits
  omega

theorem complete_of_record {os : List (Nat × Reading)} {i : Nat}
    (h : (record (fun _ => wrong) i os).map Process.view =
      os.map fun o => expected o.1 o.2.status) : ∀ o ∈ os, o.2.Complete := by
  induction os generalizing i with
  | nil => exact fun o ho => nomatch ho
  | cons o os ih =>
    rw [record, List.map_cons, List.map_cons] at h
    obtain ⟨hview, htail⟩ := List.cons.inj h
    intro x hx
    rcases List.mem_cons.mp hx with rfl | hx
    · refine complete_of_view x.2 ?_ ?_ hview
      · show (-1 : Int) ≠ x.2.status.ppid
        omega
      · exact wrong_text x.2.status
    · exact ih htail x hx

/-- **The table is the scan** if and only if there is room for all the processes that could be
    opened, each was read as far as the number of its parent, and each has a name that is one
    word. -/
theorem readProcesses_faithful_iff (dir : List (ProcEntry Reading)) :
    (∀ junk, ∃ t, readProcesses MAX_PROCESSES junk (some dir) = .ok t ∧
      t.map Process.view =
        (dir.filterMap ProcEntry.opened).map fun o => expected o.1 o.2.status) ↔
    (dir.filterMap ProcEntry.opened).length ≤ MAX_PROCESSES ∧
      ∀ o ∈ dir.filterMap ProcEntry.opened, o.2.Complete := by
  constructor
  · intro h
    -- what lies on the stack may be wrong for all of them
    obtain ⟨t, hread, hview⟩ := h fun _ => wrong
    obtain ⟨hroom, rfl⟩ := readProcesses_ok_iff.mp hread
    exact ⟨hroom, complete_of_record hview⟩
  · rintro ⟨hroom, hcomplete⟩ junk
    exact ⟨record junk 0 (dir.filterMap ProcEntry.opened), readProcesses_ok_iff.mpr ⟨hroom, rfl⟩,
      record_complete hcomplete 0⟩

end

/-- The status file of a process called `tmux: server`, whose parent is 3. -/
def tmuxServer : Status where
  name := ascii ['t', 'm', 'u', 'x', ':', ' ', 's', 'e', 'r', 'v', 'e', 'r']
  ppid := 3
  between := ascii ['P', 'i', 'd', ':', '\t', '7', '\n']
  after := ascii ['U', 'i', 'd', ':', '\t', '0', '\n']
  name_line := by decide
  name_string := by decide
  name_fits := by decide
  ppid_int := by decide
  between_lines := by decide
  others := by decide

/-- **A name with a space** is recorded as its first word; and of a process that is gone once its
    name has been read, something is recorded as the parent that was never read. -/
theorem readProcesses_first_word :
    (readProcesses MAX_PROCESSES (fun _ => wrong) (some [.process 7 (some ⟨tmuxServer, 100⟩),
      .process 8 (some ⟨tmuxServer, 19⟩)])).toOption.map (·.map Process.view) =
    some [(7, 3, ascii ['t', 'm', 'u', 'x', ':']), (8, -1, ascii ['t', 'm', 'u', 'x', ':'])] ∧
    [expected 7 tmuxServer, expected 8 tmuxServer] ≠
      [(7, 3, ascii ['t', 'm', 'u', 'x', ':']), (8, -1, ascii ['t', 'm', 'u', 'x', ':'])] := by
  decide +kernel

end LinuxInterface.PsTree
