/-
  ch12/3_fileproc.c: `list_process_with_file`, which lists the processes that have a file open.

  1. **The program** — for every process the links in its `fd` directory are read, and its name is
     printed at each of them that has the path as its target (`checkLink`).  A target is cut off
     behind `PATH_MAX - 1` bytes, but a path that is shorter is not mistaken for another
     (`readlink_eq_iff`).

  2. **Once or more often** — so a process is printed as often as it has the file open
     (`printed_eq`), and the list is one of processes iff none has it open twice
     (`listProcessWithFile_once_iff`).
-/
import LinuxInterface.Base.CString
import LinuxInterface.Base.ProcDir
import LinuxInterface.Base.Scanf

namespace LinuxInterface.FileProc

open LinuxInterface

/-! ## The program -/

def PATH_MAX : Nat := 4096

/-- An entry of an `fd` directory: whether `d_type == DT_LNK`, and the target of the link unless it
    cannot be read. -/
structure FdEntry where
  isLnk : Bool
  target : Option CStr

/-- `readlink(fd_path, link_target, sizeof(link_target) - 1)`. -/
def FdEntry.readlink (e : FdEntry) : Option (List UInt8) :=
  e.target.map fun t => t.bytes.take (PATH_MAX - 1)

section

variable (path : CStr)

/-- A round of the loop over the `fd` directory: the names it prints. -/
def checkLink (name : List UInt8) (e : FdEntry) : List (List UInt8) :=
  if e.isLnk then
    match e.readlink with
    | some target => if target = path.bytes then [name] else []
    | none => []
  else []

/-- A round of the loop over `/proc`. -/
def checkEntry (ent : ProcEntry (List FdEntry)) : List (List UInt8) :=
  if isdigit (ent.dName.headD 0) then
    -- `opendir("/proc/…/fd")`
    match ent.file with
    | some es => es.flatMap (checkLink path ent.dName)
    | none => []
  else []

/-- `list_process_with_file(path)`: the lines it prints. -/
def listProcessWithFile (dir : Option (List (ProcEntry (List FdEntry)))) : List (List UInt8) :=
  match dir with
  | some dir => dir.flatMap (checkEntry path)
  | none => []

/-! ## Once or more often -/

/-- Whether this is a link that can be read and whose target is the path. -/
def FdEntry.holds (e : FdEntry) : Bool := e.isLnk && e.target.map CStr.bytes = some path.bytes

/-- How often a process has the file open. -/
def timesOpen (es : List FdEntry) : Nat := es.countP (FdEntry.holds path)

/-- The processes that have the file open, each once. -/
def holders (dir : List (ProcEntry (List FdEntry))) : List (List UInt8) :=
  ((dir.filterMap ProcEntry.opened).filter fun o => 0 < timesOpen path o.2).map fun o => decimal o.1

variable {path}

/-- Only the path itself is read as the path. -/
theorem readlink_eq_iff (hpath : path.bytes.length < PATH_MAX - 1) (e : FdEntry) :
    e.readlink = some path.bytes ↔ e.target.map CStr.bytes = some path.bytes := by
  unfold FdEntry.readlink
  cases e.target with
  | none => exact Iff.rfl
  | some t =>
    show some (t.bytes.take (PATH_MAX - 1)) = some path.bytes ↔ some t.bytes = some path.bytes
    rw [Option.some.injEq, Option.some.injEq]
    constructor
    · intro h
      -- the path is shorter than the buffer, so nothing was cut off
      have hlen := congrArg List.length h
      rw [List.length_take] at hlen
      rw [List.take_of_length_le (by omega)] at h
      exact h
    · intro h
      rw [h, List.take_of_length_le (by omega)]

theorem checkLink_eq (hpath : path.bytes.length < PATH_MAX - 1) (name : List UInt8) (e : FdEntry) :
    checkLink path name e = if e.holds path then [name] else [] := by
  have hread := readlink_eq_iff hpath e
  unfold checkLink FdEntry.holds
  cases e.isLnk with
  | false => rfl
  | true =>
    rw [if_pos rfl, Bool.true_and]
    cases hr : e.readlink with
    | none =>
      rw [hr] at hread
      rw [if_neg fun h => nomatch hread.mpr (of_decide_eq_true h)]
    | some target =>
      rw [hr, Option.some.injEq] at hread
      simp only [hread, decide_eq_true_iff]

/-- The loop over the `fd` directory prints the name once for every link to the path. -/
theorem checkLinks_eq (hpath : path.bytes.length < PATH_MAX - 1) (name : List UInt8)
    (es : List FdEntry) :
    es.flatMap (checkLink path name) = List.replicate (timesOpen path es) name := by
  induction es with
  | nil => rfl
  | cons e es ih =>
    rw [List.flatMap_cons, ih, checkLink_eq hpath]
    show _ = List.replicate ((e :: es).countP (FdEntry.holds path)) name
    rw [List.countP_cons]
    cases e.holds path with
    | true => rfl
    | false => rfl

theorem checkEntry_eq (hpath : path.bytes.length < PATH_MAX - 1) (ent : ProcEntry (List FdEntry)) :
    checkEntry path ent =
      match ent.opened with
      | some o => List.replicate (timesOpen path o.2) (decimal o.1)
      | none => [] := by
  unfold checkEntry
  cases hent : ent.opened with
  | none =>
    rcases ProcEntry.skipped_of_not_opened hent with hdigit | hfile
    · exact if_neg (Bool.eq_false_iff.mp hdigit)
    · rw [hfile]
      exact ite_self _
  | some o =>
    obtain ⟨hdigit, hname, hfile, -⟩ := ProcEntry.found_of_opened hent
    rw [if_pos hdigit, hfile, hname]
    exact checkLinks_eq hpath (decimal o.1) o.2

/-- Every process is printed as often as it has the file open. -/
theorem printed_eq (hpath : path.bytes.length < PATH_MAX - 1) (dir : List (ProcEntry (List FdEntry))) :
    listProcessWithFile path (some dir) = (dir.filterMap ProcEntry.opened).flatMap fun o =>
      List.replicate (timesOpen path o.2) (decimal o.1) := by
  show dir.flatMap (checkEntry path) = _
  induction dir with
  | nil => rfl
  | cons ent dir ih =>
    rw [List.flatMap_cons, ih, checkEntry_eq hpath]
    cases hent : ent.opened with
    | none => rw [List.filterMap_cons_none hent, List.nil_append]
    | some o => rw [List.filterMap_cons_some hent, List.flatMap_cons]

section

variable {α β : Type} (n : α → Nat) (f : α → β)

theorem length_filter_le_flatMap_replicate (l : List α) :
    ((l.filter fun a => 0 < n a).map f).length ≤
      (l.flatMap fun a => List.replicate (n a) (f a)).length := by
  induction l with
  | nil => exact Nat.le_refl _
  | cons a l ih =>
    rw [List.flatMap_cons, List.length_append, List.length_replicate]
    by_cases ha : 0 < n a
    · rw [List.filter_cons_of_pos (by simpa using ha), List.map_cons, List.length_cons]
      omega
    · rw [List.filter_cons_of_neg (by simpa using ha)]
      omega

/-- Every element some number of times is every element once, but for those that are not there, iff
    these numbers are at most 1. -/
theorem flatMap_replicate_eq_iff (l : List α) :
    (l.flatMap fun a => List.replicate (n a) (f a)) = (l.filter fun a => 0 < n a).map f ↔
      ∀ a ∈ l, n a ≤ 1 := by
  induction l with
  | nil => simp
  | cons a l ih =>
    rw [List.flatMap_cons, List.forall_mem_cons]
    cases hn : n a with
    | zero =>
      rw [List.filter_cons_of_neg (by simp [hn]), List.replicate_zero, List.nil_append, ih]
      simp
    | succ k =>
      rw [List.filter_cons_of_pos (by simp [hn]), List.map_cons, List.replicate_succ,
        List.cons_append, List.cons.injEq, ← ih]
      constructor
      · rintro ⟨-, h⟩
        -- `k` copies too many make the left side longer
        have hlen := congrArg List.length h
        have hle := length_filter_le_flatMap_replicate n f l
        rw [List.length_append, List.length_replicate] at hlen
        obtain rfl : k = 0 := by omega
        exact ⟨Nat.le_refl 1, h⟩
      · rintro ⟨hk, h⟩
        obtain rfl : k = 0 := by omega
        exact ⟨rfl, h⟩

end

/-- **Each process once** if and only if none has the file open twice. -/
theorem listProcessWithFile_once_iff (path : CStr) (hpath : path.bytes.length < PATH_MAX - 1)
    (dir : List (ProcEntry (List FdEntry))) :
    listProcessWithFile path (some dir) = holders path dir ↔
      ∀ o ∈ dir.filterMap ProcEntry.opened, timesOpen path o.2 ≤ 1 := by
  rw [printed_eq hpath]
  exact flatMap_replicate_eq_iff _ _ _

end

/-- `/f`. -/
def slashF : CStr := ⟨ascii ['/', 'f'], by decide⟩

/-- A link to `/f`. -/
def linkToF : FdEntry := ⟨true, some slashF⟩

/-- Process 7 has `/f` open, process 8 does not, process 9 cannot be looked at. -/
theorem listProcessWithFile_once_three :
    listProcessWithFile slashF (some [.process 7 (some [⟨true, none⟩, linkToF]),
      .process 8 (some [⟨false, none⟩]), .process 9 none]) = [ascii ['7']] ∧
    (listProcessWithFile slashF (some [.process 7 (some [⟨true, none⟩, linkToF]),
      .process 8 (some [⟨false, none⟩]), .process 9 none]) =
        holders slashF [.process 7 (some [⟨true, none⟩, linkToF]),
          .process 8 (some [⟨false, none⟩]), .process 9 none] ↔
      ∀ o ∈ [ProcEntry.process 7 (some [⟨true, none⟩, linkToF]),
          .process 8 (some [⟨false, none⟩]), .process 9 none].filterMap ProcEntry.opened,
        timesOpen slashF o.2 ≤ 1) :=
  ⟨by decide +kernel, listProcessWithFile_once_iff slashF (by decide) _⟩

/-- **A process with two descriptors** for the file is listed twice. -/
theorem listProcessWithFile_twice :
    listProcessWithFile slashF (some [.process 7 (some [linkToF, linkToF])]) =
      [ascii ['7'], ascii ['7']] ∧
    holders slashF [.process 7 (some [linkToF, linkToF])] = [ascii ['7']] := by
  decide +kernel

end LinuxInterface.FileProc
