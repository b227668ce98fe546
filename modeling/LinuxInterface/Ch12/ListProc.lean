/-
  ch12/1_listproc.c: `list_processes`, which lists the processes of a user.

  1. **The program** — of every process in `/proc` the name is copied from the first line of the
     status file, then lines are read up to the `Uid:` line and the process is printed if its real
     uid is the one looked for (`showProcess`).  There is one `line` for all of them: a `fgets` that
     fails leaves what was in it, and `strtok` cuts it up.  The copies are never freed, so `copies`
     has all of them.

  2. **Processes that disappear** — a file may fail to open, and its lines may end anywhere (`Visit`).

  3. **Correctness** — the first `fgets` is not checked.  Where it fails there is no name to be
     found in `line`, or that of an earlier process; otherwise the listing is right
     (`listProcesses_correct_iff`).
-/
import LinuxInterface.Base.CString
import LinuxInterface.Base.ProcDir
import LinuxInterface.Base.Scanf
import LinuxInterface.Base.Stdio

namespace LinuxInterface.ListProc

open LinuxInterface

/-! ## Processes that disappear -/

/-- `"Uid:"`. -/
def uidKey : List UInt8 := ascii ['U', 'i', 'd', ':']

/-- The status file of a process: the `Name:` line, other lines, the `Uid:` line with the real uid
    and the other ids, and more lines.  Both fit in `char line[256]`. -/
structure Status where
  name : List UInt8
  between : List UInt8
  uid : List UInt8
  ids : List UInt8
  after : List UInt8
  name_text : LF ∉ name ∧ 0 ∉ name
  name_fits : name.length < 249
  between_lines : between = [] ∨ between.getLast? = some LF
  between_noUid : ∀ line ∈ pieces 256 between, ¬uidKey <:+: line
  uid_token : uid ≠ [] ∧ TAB ∉ uid
  uid_text : LF ∉ uid ++ TAB :: ids ∧ 0 ∉ uid ++ TAB :: ids
  uid_fits : uid.length + ids.length < 249

namespace Status

variable (s : Status)

def nameLine : List UInt8 := nameKey ++ TAB :: (s.name ++ [LF])

def uidLine : List UInt8 := uidKey ++ TAB :: (s.uid ++ TAB :: (s.ids ++ [LF]))

def text : List UInt8 := s.nameLine ++ (s.between ++ (s.uidLine ++ s.after))

end Status

/-- What the calls for one process find: the status file, of which `served` calls of `fgets` get a
    line before they fail, with an error or at the end of the file; and whether `malloc` has room
    for the name. -/
structure Visit where
  status : Status
  served : Nat
  error : Bool
  alloc : Bool

/-- The lines that are read. -/
def Visit.lines (v : Visit) : List (List UInt8) := (pieces 256 v.status.text).take v.served

/-! ## The program -/

/-- What is printed on standard output: `"PID: %d, Name: %s\n"`, or
    `"End of file reached successfully.\n"`. -/
inductive Print where
  | process (pid : Int) (name : List UInt8)
  | endOfFile
  deriving DecidableEq

def Print.isProcess : Print → Bool
  | process _ _ => true
  | endOfFile => false

/-- A `process_name`, and whether the line it was copied from had been read from the process's own
    file. -/
structure Copy where
  own : Bool
  name : List UInt8
  deriving DecidableEq

structure State where
  line : List UInt8
  copies : List Copy
  out : List Print
  deriving DecidableEq

section

variable (u : List UInt8)

/-- What is done with the `Uid:` line. -/
def compareUid (pid : Int) (name line : List UInt8) : List UInt8 × List Print :=
  match strtok TAB line with
  | none => (line, [])
  | some (token, more) =>
    -- the first delimiter is overwritten
    (line.takeWhile (· = TAB) ++ token,
      match strtok TAB more with
      | some (token, _) => if token = u then [.process pid name] else []
      | none => [])

/-- The inner loop, for the lines that are left to read. -/
def uidLoop (pid : Int) (name : List UInt8) (error : Bool) :
    List (List UInt8) → List UInt8 → List UInt8 × List Print
  -- `fgets` returns `NULL`, and `perror` writes to standard error
  | [], line => (line, if error then [] else [.endOfFile])
  | piece :: rest, _ =>
    match strstr uidKey (cstring piece) with
    | some _ => compareUid u pid name (cstring piece)
    | none => uidLoop pid name error rest (cstring piece)

/-- `bias`. -/
def bias : Nat := 6

/-- `line` after the first `fgets`, whose result is not looked at. -/
def firstLine (st : State) (v : Visit) : List UInt8 :=
  match v.lines with
  | [] => st.line
  | piece :: _ => cstring piece

/-- What is done for a file that is open.  `none`: `strlen` of a null pointer, or of one behind the
    end of the string. -/
def showProcess (st : State) (pid : Int) (v : Visit) : Option State :=
  match strstr nameKey (firstLine st v) with
  -- `pname` stays null
  | none => none
  | some pname =>
    if pname.length < bias then none
    else if v.alloc then
      let found := uidLoop u pid (pname.drop bias) v.error v.lines.tail (firstLine st v)
      some ⟨found.1, st.copies ++ [⟨!v.lines.isEmpty, pname.drop bias⟩], st.out ++ found.2⟩
    else some { st with line := firstLine st v }

end

/-- An entry of `/proc`: the directory of a process, or something that is not a directory or whose
    name is not a positive number; with what is found in the status file there. -/
inductive Dirent where
  | process (pid : Pid) (pos : 0 < pid.val) (file : Option Visit)
  | other (name : List UInt8) (isDir : Bool) (file : Option Visit)
      (skipped : isDir = true → atoi name ≤ 0)

namespace Dirent

/-- `d_type == DT_DIR`. -/
def isDir : Dirent → Bool
  | process _ _ _ => true
  | other _ isDir _ _ => isDir

/-- `d_name`. -/
def dName : Dirent → List UInt8
  | process pid _ _ => decimal pid.val
  | other name _ _ _ => name

/-- `fopen("/proc/…/status", "r")`. -/
def fopen : Dirent → Option Visit
  | process _ _ file => file
  | other _ _ file _ => file

/-- The process, if its status file could be opened. -/
def opened : Dirent → Option (Nat × Visit)
  | process pid _ file => file.map fun v => (pid.val, v)
  | other _ _ _ _ => none

end Dirent

/-- A round of the loop over `/proc`. -/
def visitEntry (u : List UInt8) (st : State) (ent : Dirent) : Option State :=
  if ent.isDir then
    if atoi ent.dName > 0 then
      match ent.fopen with
      | some v => showProcess u st (atoi ent.dName) v
      | none => some st
    else some st
  else some st

/-- `list_processes(u)`, with what is in `line` at first, and what `opendir` and `readdir` find. -/
def listProcesses (u line : List UInt8) (dir : Option (List Dirent)) : Option State :=
  match dir with
  | some dir => dir.foldlM (visitEntry u) ⟨line, [], []⟩
  | none => some ⟨line, [], []⟩

/-! ## Correctness -/

/-- The calls got as far as the `Uid:` line. -/
def Visit.UidRead (v : Visit) : Prop := (pieces 256 v.status.between).length + 2 ≤ v.served

instance (v : Visit) : Decidable v.UidRead := inferInstanceAs (Decidable (_ ≤ _))

/-- What is to be printed for a process. -/
def listing (u : List UInt8) (o : Nat × Visit) : List Print :=
  if o.2.UidRead ∧ o.2.status.uid = u then [.process o.1 (o.2.status.name ++ [LF])] else []

/-- The name of every process was copied from its own file, and those of the user have been
    printed, each once, with its number and its name. -/
structure Correct (u : List UInt8) (os : List (Nat × Visit)) (st : State) : Prop where
  copies : st.copies = os.map fun o => ⟨true, o.2.status.name ++ [LF]⟩
  out : st.out.filter Print.isProcess = os.flatMap (listing u)

section

variable (s : Status)

theorem Status.zero_not_mem_nameLine : 0 ∉ s.nameLine :=
  not_mem_field (by decide) (by decide) (List.not_mem_append s.name_text.2 (by decide))

/-- The ids as one value. -/
theorem Status.uidLine_eq : s.uidLine = uidKey ++ TAB :: ((s.uid ++ TAB :: s.ids) ++ [LF]) := by
  simp [Status.uidLine]

theorem Status.zero_not_mem_uidLine : 0 ∉ s.uidLine := by
  rw [s.uidLine_eq]
  exact not_mem_field (by decide) (by decide) (List.not_mem_append s.uid_text.2 (by decide))

/-- The lines of the whole file. -/
theorem Status.pieces_text : pieces 256 s.text =
    s.nameLine :: (pieces 256 s.between ++ s.uidLine :: pieces 256 s.after) := by
  have hname : s.text = nameKey ++ TAB :: (s.name ++ LF :: (s.between ++ (s.uidLine ++ s.after))) := by
    simp [Status.text, Status.nameLine]
  have hnameLen : nameKey.length + s.name.length + 2 < 256 := by
    have hfits := s.name_fits
    show 5 + s.name.length + 2 < 256
    omega
  have huid : s.uidLine ++ s.after =
      uidKey ++ TAB :: ((s.uid ++ TAB :: s.ids) ++ LF :: s.after) := by
    simp [Status.uidLine]
  have huidLen : uidKey.length + (s.uid ++ TAB :: s.ids).length + 2 < 256 := by
    have hfits := s.uid_fits
    rw [List.length_append, List.length_cons]
    show 4 + (s.uid.length + (s.ids.length + 1)) + 2 < 256
    omega
  rw [hname, pieces_field (by decide) s.name_text.1 hnameLen,
    pieces_append (by decide) s.between_lines, huid,
    pieces_field (by decide) s.uid_text.1 huidLen, ← s.uidLine_eq]
  rfl

end

section

variable {u name : List UInt8} {pid : Int} {error : Bool} {v : Visit} {st : State}

/-- A line that is not the `Uid:` line is skipped. -/
theorem uidLoop_skip {piece line : List UInt8} {rest : List (List UInt8)}
    (h : ¬uidKey <:+: piece) :
    uidLoop u pid name error (piece :: rest) line =
      uidLoop u pid name error rest (cstring piece) := by
  have hmissing := strstr_missing fun hinf => h (hinf.trans (cstring_isPrefix piece).isInfix)
  rw [uidLoop, hmissing]

/-- At the `Uid:` line the real uid is compared. -/
theorem compareUid_uidLine (s : Status) : (compareUid u pid name s.uidLine).2 =
    if s.uid = u then [.process pid name] else [] := by
  have hfirst : strtok TAB s.uidLine = some (uidKey, s.uid ++ TAB :: (s.ids ++ [LF])) :=
    strtok_token (by decide) (by decide) _
  have hsecond : strtok TAB (s.uid ++ TAB :: (s.ids ++ [LF])) = some (s.uid, s.ids ++ [LF]) :=
    strtok_token s.uid_token.1 s.uid_token.2 _
  unfold compareUid
  rw [hfirst]
  dsimp only
  rw [hsecond]

theorem uidLoop_end (line : List UInt8) :
    (uidLoop u pid name error [] line).2.filter Print.isProcess = [] := by
  cases error <;> rfl

/-- The inner loop over the first `k` lines behind the name: it prints the process iff the `Uid:`
    line is one of them and says so. -/
theorem uidLoop_spec (u name : List UInt8) (pid : Int) (error : Bool) (s : Status)
    {between : List (List UInt8)} (hbetween : ∀ line ∈ between, ¬uidKey <:+: line)
    (after : List (List UInt8)) (k : Nat) (line : List UInt8) :
    (uidLoop u pid name error ((between ++ s.uidLine :: after).take k) line).2.filter
        Print.isProcess =
      if between.length < k ∧ s.uid = u then [.process pid name] else [] := by
  induction between generalizing k line with
  | nil =>
    cases k with
    | zero =>
      -- the file ends in front of the `Uid:` line
      rw [List.take_zero, uidLoop_end, if_neg fun h => Nat.lt_irrefl 0 h.1]
    | succ k =>
      have hstart : strstr uidKey s.uidLine = some s.uidLine := strstr_start ⟨_, rfl⟩
      rw [List.nil_append, List.take_succ_cons, uidLoop,
        cstring_eq_self.mpr s.zero_not_mem_uidLine, hstart]
      dsimp only
      rw [compareUid_uidLine]
      by_cases hu : s.uid = u
      · rw [if_pos hu, if_pos ⟨Nat.succ_pos k, hu⟩]
        rfl
      · rw [if_neg hu, if_neg fun h => hu h.2]
        rfl
  | cons piece between ih =>
    cases k with
    | zero =>
      rw [List.take_zero, uidLoop_end, if_neg fun h => Nat.not_lt_zero _ h.1]
    | succ k =>
      rw [List.cons_append, List.take_succ_cons, uidLoop_skip (hbetween piece List.mem_cons_self),
        ih fun l hl => hbetween l (List.mem_cons_of_mem _ hl)]
      simp only [List.length_cons, Nat.succ_lt_succ_iff]

theorem Visit.lines_eq_nil_iff : v.lines = [] ↔ v.served = 0 := by
  unfold Visit.lines
  rw [List.take_eq_nil_iff, v.status.pieces_text]
  simp

/-- What is done for a process whose first line is read. -/
theorem showProcess_own (u : List UInt8) (st : State) (pid : Nat) (halloc : v.alloc = true)
    (hserved : 0 < v.served) :
    ∃ line printed, showProcess u st pid v =
        some ⟨line, st.copies ++ [⟨true, v.status.name ++ [LF]⟩], st.out ++ printed⟩ ∧
      printed.filter Print.isProcess = listing u (pid, v) := by
  obtain ⟨k, hk⟩ := Nat.exists_eq_succ_of_ne_zero (Nat.pos_iff_ne_zero.mp hserved)
  have hlines : v.lines = v.status.nameLine ::
      (pieces 256 v.status.between ++ v.status.uidLine :: pieces 256 v.status.after).take k := by
    show (pieces 256 v.status.text).take v.served = _
    rw [v.status.pieces_text, hk, List.take_succ_cons]
  have hname : strstr nameKey v.status.nameLine = some v.status.nameLine := strstr_start ⟨_, rfl⟩
  have hlong : ¬v.status.nameLine.length < bias := by
    simp [Status.nameLine, nameKey, ascii, bias]
  have hdrop : v.status.nameLine.drop bias = v.status.name ++ [LF] := rfl
  refine ⟨(uidLoop u pid (v.status.name ++ [LF]) v.error v.lines.tail v.status.nameLine).1,
    (uidLoop u pid (v.status.name ++ [LF]) v.error v.lines.tail v.status.nameLine).2, ?_, ?_⟩
  · have hfirst : firstLine st v = v.status.nameLine := by
      unfold firstLine
      rw [hlines]
      exact cstring_eq_self.mpr v.status.zero_not_mem_nameLine
    have hown : (!v.lines.isEmpty) = true := by
      rw [hlines]
      rfl
    unfold showProcess
    rw [hfirst, hname]
    dsimp only
    rw [if_neg hlong, if_pos halloc, hdrop, hown]
  · rw [hlines, List.tail_cons, uidLoop_spec u _ _ _ _ v.status.between_noUid]
    have hread : v.UidRead ↔ (pieces 256 v.status.between).length < k := by
      unfold Visit.UidRead
      omega
    simp only [listing, hread]

/-- Where the first line is not read, a name that is copied is not the process's own. -/
theorem showProcess_copies {st' : State} (halloc : v.alloc = true)
    (h : showProcess u st pid v = some st') :
    ∃ c, st'.copies = st.copies ++ [c] ∧ c.own = decide (0 < v.served) := by
  have hown : (!v.lines.isEmpty) = decide (0 < v.served) := by
    rw [Bool.eq_iff_iff, Bool.not_eq_true', List.isEmpty_eq_false_iff, decide_eq_true_iff,
      Nat.pos_iff_ne_zero, ne_eq, Visit.lines_eq_nil_iff]
  unfold showProcess at h
  split at h
  · nomatch h
  · split at h
    · nomatch h
    · obtain rfl := Option.some.inj h
      exact ⟨_, rfl, hown⟩

/-- Only what could be opened matters. -/
theorem visitEntry_eq (u : List UInt8) (st : State) (ent : Dirent) :
    visitEntry u st ent =
      match ent.opened with
      | some o => showProcess u st o.1 o.2
      | none => some st := by
  cases ent with
  | other name isDir file skipped =>
    show (if isDir then if atoi name > 0 then _ else some st else some st) = some st
    split
    · next hdir => exact if_neg (Int.not_lt.mpr (skipped hdir))
    · rfl
  | process pid pos file =>
    cases file with
    | none => exact ite_self _
    | some v =>
      show (if atoi (decimal pid.val) > 0 then showProcess u st (atoi (decimal pid.val)) v
        else some st) = showProcess u st pid.val v
      have hpos : (pid.val : Int) > 0 := Int.ofNat_lt.mpr pos
      rw [atoi_decimal pid.isLt, if_pos hpos]

theorem listProcesses_eq (u line : List UInt8) (dir : List Dirent) :
    listProcesses u line (some dir) =
      (dir.filterMap Dirent.opened).foldlM (fun st o => showProcess u st o.1 o.2) ⟨line, [], []⟩ := by
  rw [List.foldlM_filterMap]
  show dir.foldlM (visitEntry u) _ = _
  congr 1
  funext st ent
  rw [visitEntry_eq]
  cases ent.opened <;> rfl

/-- The loop over `/proc`, where every process has its first line read. -/
theorem foldlM_own (u : List UInt8) {os : List (Nat × Visit)}
    (h : ∀ o ∈ os, o.2.alloc = true ∧ 0 < o.2.served) (st : State) :
    ∃ st', os.foldlM (fun st o => showProcess u st o.1 o.2) st = some st' ∧
      st'.copies = st.copies ++ os.map (fun o => ⟨true, o.2.status.name ++ [LF]⟩) ∧
      st'.out.filter Print.isProcess =
        st.out.filter Print.isProcess ++ os.flatMap (listing u) := by
  induction os generalizing st with
  | nil => exact ⟨st, rfl, (List.append_nil _).symm, (List.append_nil _).symm⟩
  | cons o os ih =>
    obtain ⟨halloc, hserved⟩ := h o List.mem_cons_self
    obtain ⟨line, printed, hshow, hprinted⟩ := showProcess_own u st o.1 halloc hserved
    obtain ⟨st', hrun, hcopies, hout⟩ := ih (fun o ho => h o (List.mem_cons_of_mem _ ho))
      ⟨line, st.copies ++ [⟨true, o.2.status.name ++ [LF]⟩], st.out ++ printed⟩
    refine ⟨st', ?_, ?_, ?_⟩
    · rw [List.foldlM_cons, hshow]
      exact hrun
    · rw [hcopies, List.map_cons, List.append_assoc]
      rfl
    · rw [hout, List.filter_append, hprinted, List.flatMap_cons, List.append_assoc]

/-- The loop over `/proc`: a copy for every process, and whether it is the process's own. -/
theorem foldlM_copies {os : List (Nat × Visit)} {st st' : State}
    (halloc : ∀ o ∈ os, o.2.alloc = true)
    (h : os.foldlM (fun st o => showProcess u st o.1 o.2) st = some st') :
    st'.copies.map Copy.own =
      st.copies.map Copy.own ++ os.map fun o => decide (0 < o.2.served) := by
  induction os generalizing st with
  | nil =>
    obtain rfl : st = st' := Option.some.inj h
    exact (List.append_nil _).symm
  | cons o os ih =>
    rw [List.foldlM_cons] at h
    obtain ⟨st₁, hshow, hrun⟩ := Option.bind_eq_some_iff.mp h
    obtain ⟨c, hc, hown⟩ := showProcess_copies (halloc o List.mem_cons_self) hshow
    rw [ih (fun o ho => halloc o (List.mem_cons_of_mem _ ho)) hrun, hc, List.map_append,
      List.append_assoc, List.map_cons, List.map_cons, hown]
    rfl

/-- **The listing is right**, whenever processes disappear, if and only if of every process whose
    status file could be opened the first line was read. -/
theorem listProcesses_correct_iff (u line : List UInt8) (dir : List Dirent)
    (halloc : ∀ o ∈ dir.filterMap Dirent.opened, o.2.alloc = true) :
    (∃ st, listProcesses u line (some dir) = some st ∧
      Correct u (dir.filterMap Dirent.opened) st) ↔
    ∀ o ∈ dir.filterMap Dirent.opened, 0 < o.2.served := by
  rw [listProcesses_eq]
  constructor
  · rintro ⟨st, hrun, hcorrect⟩ o ho
    -- all the copies are their processes' own, and only a line that was read makes one
    have hown := foldlM_copies halloc hrun
    rw [hcorrect.copies, List.map_map, List.map_nil, List.nil_append] at hown
    exact (of_decide_eq_true (List.map_inj_left.mp hown o ho).symm)
  · intro hserved
    obtain ⟨st, hrun, hcopies, hout⟩ :=
      foldlM_own u (fun o ho => ⟨halloc o ho, hserved o ho⟩) ⟨line, [], []⟩
    exact ⟨st, hrun, hcopies, hout⟩

end

/-- The status file of a process of the user 1000. -/
def bash : Status where
  name := ascii ['b', 'a', 's', 'h']
  between := ascii ['T', 'g', 'i', 'd', ':', '\t', '7', '\n']
  uid := ascii ['1', '0', '0', '0']
  ids := ascii ['1', '0', '0', '0']
  after := []
  name_text := by decide
  name_fits := by decide
  between_lines := by decide
  between_noUid := by decide
  uid_token := by decide
  uid_text := by decide
  uid_fits := by decide

/-- One that is read to its end, one that ends before its `Uid:` line, one that cannot be opened. -/
def threeProcesses : List Dirent :=
  [.process 7 (by decide) (some ⟨bash, 9, false, true⟩),
    .process 8 (by decide) (some ⟨bash, 2, true, true⟩), .process 9 (by decide) none]

theorem listProcesses_correct_three :
    ((listProcesses bash.uid [] (some threeProcesses)).map (·.out) =
      some [.process 7 (ascii ['b', 'a', 's', 'h', '\n'])]) ∧
    ((∃ st, listProcesses bash.uid [] (some threeProcesses) = some st ∧
      Correct bash.uid (threeProcesses.filterMap Dirent.opened) st) ↔
    ∀ o ∈ threeProcesses.filterMap Dirent.opened, 0 < o.2.served) :=
  ⟨by decide +kernel, listProcesses_correct_iff bash.uid [] threeProcesses (by decide)⟩

/-- **A process that is gone before its first line is read.**  After a process whose `Uid:` line was
    read there is no `Name:` in `line` any more, and `strlen` is given a null pointer; after one
    that ended with its `Name:` line, the name that is used is that of the earlier process. -/
theorem listProcesses_unchecked :
    listProcesses bash.uid [] (some [.process 7 (by decide) (some ⟨bash, 9, false, true⟩),
      .process 8 (by decide) (some ⟨bash, 0, true, true⟩)]) = none ∧
    (listProcesses bash.uid [] (some [.process 7 (by decide) (some ⟨bash, 1, true, true⟩),
      .process 8 (by decide) (some ⟨bash, 0, true, true⟩)])).map (·.copies) =
        some [⟨true, ascii ['b', 'a', 's', 'h', '\n']⟩, ⟨false, ascii ['b', 'a', 's', 'h', '\n']⟩] := by
  decide +kernel

end LinuxInterface.ListProc
