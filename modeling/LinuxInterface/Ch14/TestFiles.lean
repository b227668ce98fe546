/-
  ch14/test_increment.c and ch14/test_random.c: files are created in a directory and deleted again.

  1. **The programs** — they differ in the numbers of the files they create, which are counted up or
     drawn.  `delete_files` collects the names that begin with an `x`, as many as its array has room
     for, and removes them in the order of `strcmp`, in which `qsort` has put them (`Qsort`).

  2. **Creating** — if the paths fit into the buffer, the files named by the numbers are created and
     nothing else (`createFiles_eq`); with a longer path one of them is not there
     (`createFiles_iff`).

  3. **Deleting** — every name that was collected is removed, or what is left of it if the path does
     not fit (`deleteFiles_eq`).  The directory is as before, whatever the order of its entries, if
     and only if it had no other file with an `x` that can be named, and there are not more files
     than the array has room for (`main_restores_iff`).
-/
import LinuxInterface.Base.Directory
import LinuxInterface.Base.Scanf
import LinuxInterface.Base.Stdio
import Mathlib.Data.List.Dedup
import Mathlib.Data.List.Sort

namespace LinuxInterface.TestFiles

open LinuxInterface

/-! ## The programs -/

def MAX_FILES : Nat := 20000

def FILENAME_PREFIX : CStr := ⟨ascii ['x'], by decide⟩

/-- The two programs; `rand i` is what the call of `rand` in round `i` returns. -/
inductive Test where
  | increment
  | random (rand : Nat → Nat)

/-- The number in the name of the file that round `i` creates. -/
def Test.num (t : Test) (i : Nat) : Nat :=
  match t with
  | .increment => i
  | .random rand => rand i % 1000000

/-- `FILENAME_PREFIX` and the number as `%06d`. -/
def fileName (n : Nat) : FileName where
  bytes := FILENAME_PREFIX.bytes ++ decimalPad 6 n
  valid := by
    have hdigit : ∀ c ∈ FILENAME_PREFIX.bytes ++ decimalPad 6 n, c = 120 ∨ isdigit c = true := by
      intro c hc
      rcases List.mem_append.mp hc with hc | hc
      · exact Or.inl (List.mem_singleton.mp hc)
      · exact Or.inr (isdigit_of_mem_decimalPad hc)
    refine ⟨List.cons_ne_nil _ _, fun h => ?_, fun h => ?_, fun h => ?_, fun h => ?_⟩
    · exact absurd (hdigit _ h) (by decide)
    · exact absurd (hdigit _ h) (by decide)
    · exact absurd (List.cons.inj h).1 (by decide)
    · exact absurd (List.cons.inj h).1 (by decide)

/-- `"%s/%s"`. -/
def pathIn (directory : CStr) (nm : FileName) : CStr where
  bytes := directory.bytes ++ SLASH :: nm.bytes
  noNul := by
    intro h
    rcases List.mem_append.mp h with h | h
    · exact directory.noNul h
    · rcases List.mem_cons.mp h with h | h
      · exact absurd h (by decide)
      · exact nm.valid.2.2.1 h

section

variable (directory : CStr)

/-- A round of the loop in `create_files`, with `char filename[20]`. -/
def createFile (fs : Fs) (n : Nat) : Fs :=
  fs.create (snprintf 20 (pathIn directory (fileName n))) [0]

/-- `create_files(directory, num_files)`. -/
def createFiles (t : Test) (numFiles : Nat) (fs : Fs) : Fs :=
  (List.range numFiles).foldl (fun fs i => createFile directory fs (t.num i)) fs

/-- Whether `strncmp(entry->d_name, FILENAME_PREFIX, strlen(FILENAME_PREFIX)) == 0`. -/
def hasPrefix (nm : FileName) : Bool := strncmp nm.str FILENAME_PREFIX FILENAME_PREFIX.strlen = 0

/-- The loop over the directory: the names that are in `filenames` behind it. -/
def collect : List FileName → List FileName → List FileName
  | [], filenames => filenames
  | entry :: entries, filenames =>
    if hasPrefix entry then
      if MAX_FILES ≤ filenames.length + 1 then filenames ++ [entry]
      else collect entries (filenames ++ [entry])
    else collect entries filenames

/-- `compare(&a, &b)`. -/
def compare (a b : FileName) : Int := strcmp a.str b.str

/-- The loop that removes the files, with `char full_path[256]`: the files that `remove` takes out,
    one after the other and each with its directory, and the file system behind it. -/
def removeLoop : List FileName → Fs → List (Nat × FileName) × Fs
  | [], fs => ([], fs)
  | nm :: nms, fs =>
    let fullPath := snprintf 256 (pathIn directory nm)
    let rest := removeLoop nms (fs.remove fullPath)
    ((fs.removes fullPath).toList ++ rest.1, rest.2)

variable (qsort : List FileName → List FileName)

/-- `delete_files(directory, num_files)`, for what `readdir` returns: the files that are removed, in
    this order, and the file system. -/
def deleteFiles (entries : List FileName) (fs : Fs) : List (Nat × FileName) × Fs :=
  match fs.opendir directory with
  | none => ([], fs)
  | some _ => removeLoop directory (qsort (collect entries [])) fs

/-- `main` with the arguments `num` and `directory`: the status and the file system. -/
def main (t : Test) (num : CStr) (entries : List FileName) (fs : Fs) : Nat × Fs :=
  let numFiles := atoi num.bytes
  -- `Number of files must be positive.`
  if numFiles ≤ 0 then (EXIT_FAILURE, fs)
  else (EXIT_SUCCESS,
    (deleteFiles directory qsort entries (createFiles directory t numFiles.toNat fs)).2)

end

/-- What `qsort(filenames, count, sizeof(char *), compare)` is relied on to do. -/
structure Qsort (qsort : List FileName → List FileName) : Prop where
  perm : ∀ filenames, (qsort filenames).Perm filenames
  sorted : ∀ filenames, (qsort filenames).Pairwise fun a b => compare a b ≤ 0

/-- A sort that does it. -/
def sortNames (filenames : List FileName) : List FileName :=
  filenames.insertionSort fun a b => compare a b ≤ 0

theorem compare_le_zero (a b : FileName) : compare a b ≤ 0 ↔ a.bytes ≤ b.bytes :=
  strcmp_le_zero a.str b.str

theorem qsort_sortNames : Qsort sortNames := by
  have htotal : Std.Total fun a b => compare a b ≤ 0 := by
    constructor
    intro a b
    rw [compare_le_zero, compare_le_zero]
    exact List.le_total a.bytes b.bytes
  have htrans : IsTrans FileName fun a b => compare a b ≤ 0 := by
    constructor
    intro a b c
    rw [compare_le_zero, compare_le_zero, compare_le_zero]
    exact List.le_trans
  exact ⟨fun nms => List.perm_insertionSort _ nms, fun nms => List.pairwise_insertionSort _ nms⟩

/-! ## Creating -/

/-- The names of the files that are created. -/
def names (t : Test) (numFiles : Nat) : List FileName :=
  (List.range numFiles).map fun i => fileName (t.num i)

section

variable {directory : CStr} {t : Test} {numFiles d : Nat} {fs : Fs}

theorem snprintf_of_lt {n : Nat} {text : CStr} (h : text.strlen < n) :
    (snprintf n text).bytes = text.bytes :=
  List.take_of_length_le (Nat.le_sub_one_of_lt h)

theorem strlen_pathIn (directory : CStr) (nm : FileName) :
    (pathIn directory nm).strlen = directory.strlen + 1 + nm.bytes.length := by
  rw [CStr.strlen, pathIn, List.length_append, List.length_cons]
  show _ = directory.bytes.length + 1 + _
  omega

/-- A path of which the beginning with the slash fits. -/
theorem take_pathIn {nm : FileName} {k : Nat} (h : directory.strlen < k) :
    (pathIn directory nm).bytes.take k =
      directory.bytes ++ SLASH :: nm.bytes.take (k - 1 - directory.strlen) := by
  have hbytes : directory.bytes.length = directory.strlen := rfl
  show (directory.bytes ++ SLASH :: nm.bytes).take k = _
  rw [List.take_append, List.take_of_length_le (by omega), hbytes,
    show k - directory.strlen = (k - 1 - directory.strlen) + 1 by omega, List.take_succ_cons]

theorem length_fileName (n : Nat) : (fileName n).bytes.length = 1 + max 6 (decimal n).length := by
  rw [fileName, List.length_append, length_decimalPad]
  rfl

theorem fileName_inj {m n : Nat} (h : fileName m = fileName n) : m = n := by
  have hpad : decimalPad 6 m = decimalPad 6 n :=
    (List.cons.inj (congrArg FileName.bytes h)).2
  rw [← value_decimalPad 6 m, hpad, value_decimalPad]

/-- **Creating** files whose paths fit into the buffer. -/
theorem createFiles_eq
    (hfit : ∀ i < numFiles, (pathIn directory (fileName (t.num i))).strlen < 20)
    (hdir : fs.dirAt (directory.bytes ++ [SLASH]) = some d)
    (hnode : ∀ i < numFiles, fs.node d (fileName (t.num i)) ≠ some .dir) :
    createFiles directory t numFiles fs = fs.putAll d (names t numFiles) (some (.file [0])) := by
  refine Fs.foldl_assign (List.range numFiles) ?_ hdir (fun h => nomatch h) ?_
  · intro i hi
    exact snprintf_of_lt (hfit i (List.mem_range.mp hi))
  · intro i hi
    exact hnode i (List.mem_range.mp hi)

/-- A path that is too long leads to another name. -/
theorem createFile_other {nm : FileName} (hlong : ¬(pathIn directory nm).strlen < 20)
    (hdir : ∀ p d', fs.dirAt p = some d' → p = directory.bytes ++ [SLASH]) (n : Nat) :
    (createFile directory fs n).node d nm = fs.node d nm := by
  show (Fs.assign fs (snprintf 20 (pathIn directory (fileName n))).bytes _).node d nm = _
  rw [Fs.node_assign, if_neg]
  rintro ⟨hres, -⟩
  -- the name that is put has room in the buffer
  obtain ⟨p, hp, hbytes⟩ := Fs.bytes_of_resolve hres
  have hlen := congrArg List.length hbytes
  rw [hdir p d hp, List.length_append, List.length_append, snprintf, List.length_take] at hlen
  rw [strlen_pathIn] at hlong
  simp only [CStr.strlen, List.length_singleton] at hlong hlen
  omega

/-- The last round. -/
theorem createFiles_succ (directory : CStr) (t : Test) (numFiles : Nat) (fs : Fs) :
    createFiles directory t (numFiles + 1) fs =
      createFile directory (createFiles directory t numFiles fs) (t.num numFiles) := by
  rw [createFiles, List.range_succ, List.foldl_append]
  rfl

theorem dirAt_createFiles (directory : CStr) (t : Test) (numFiles : Nat) (fs : Fs) :
    (createFiles directory t numFiles fs).dirAt = fs.dirAt := by
  induction numFiles with
  | zero => rfl
  | succ k ih =>
    rw [createFiles_succ]
    exact (Fs.dirAt_assign _ _ _).trans ih

/-- Nothing but one empty directory. -/
def onlyDir (directory : CStr) : Fs :=
  ⟨fun p => if p = directory.bytes ++ [SLASH] then some 0 else none, fun _ _ => none⟩

theorem createFiles_other {nm : FileName} (hlong : ¬(pathIn directory nm).strlen < 20) (t : Test)
    (numFiles : Nat) : (createFiles directory t numFiles (onlyDir directory)).node 0 nm = none := by
  induction numFiles with
  | zero => rfl
  | succ k ih =>
    have hdir : ∀ p d', (createFiles directory t k (onlyDir directory)).dirAt p = some d' →
        p = directory.bytes ++ [SLASH] := by
      intro p d' hp
      rw [dirAt_createFiles] at hp
      exact (Option.ite_none_right_eq_some.mp hp).1
    rw [createFiles_succ]
    exact (createFile_other hlong hdir _).trans ih

/-- If the last path fits, all do. -/
theorem fits_of_last (h : (pathIn directory (fileName (numFiles - 1))).strlen < 20) :
    ∀ i < numFiles, (pathIn directory (fileName i)).strlen < 20 := by
  intro i hi
  have hmono := length_decimal_mono (Nat.le_sub_one_of_lt hi)
  rw [strlen_pathIn, length_fileName] at h ⊢
  omega

end

/-- **What is asked for** is created, in every file system with the directory, if and only if the last
    path fits into the buffer. -/
theorem createFiles_iff (directory : CStr) (numFiles : Nat) (hpos : 0 < numFiles) :
    ((List.range numFiles).map fileName).Nodup ∧
    ((∀ (fs : Fs) (d : Nat), fs.dirAt (directory.bytes ++ [SLASH]) = some d →
        (∀ i < numFiles, fs.node d (fileName i) ≠ some .dir) →
        ∀ d' nm, (createFiles directory .increment numFiles fs).node d' nm =
          if d' = d ∧ nm ∈ (List.range numFiles).map fileName then some (.file [0])
          else fs.node d' nm) ↔
      (pathIn directory (fileName (numFiles - 1))).strlen < 20) := by
  refine ⟨List.nodup_range.map fun i j => fileName_inj, ?_, ?_⟩
  · intro h
    by_contra hlong
    have hlast : fileName (numFiles - 1) ∈ (List.range numFiles).map fileName :=
      List.mem_map_of_mem (List.mem_range.mpr (Nat.sub_lt hpos Nat.one_pos))
    have hnone := createFiles_other hlong .increment numFiles
    rw [h (onlyDir directory) 0 (if_pos rfl) (fun _ _ h => nomatch h), if_pos ⟨rfl, hlast⟩] at hnone
    nomatch hnone
  · intro hlast fs d hdir hnode d' nm
    have hfit : ∀ i < numFiles, (pathIn directory (fileName (Test.increment.num i))).strlen < 20 :=
      fits_of_last hlast
    rw [createFiles_eq hfit hdir hnode, Fs.node_putAll]
    rfl

/-- `d`. -/
def dirD : CStr := ⟨ascii ['d'], by decide⟩

theorem createFiles_three :
    ((List.range 3).map fileName).Nodup ∧
    ((∀ (fs : Fs) (d : Nat), fs.dirAt (dirD.bytes ++ [SLASH]) = some d →
        (∀ i < 3, fs.node d (fileName i) ≠ some .dir) →
        ∀ d' nm, (createFiles dirD .increment 3 fs).node d' nm =
          if d' = d ∧ nm ∈ (List.range 3).map fileName then some (.file [0]) else fs.node d' nm) ↔
      (pathIn dirD (fileName (3 - 1))).strlen < 20) :=
  createFiles_iff dirD 3 (by decide)

/-- A path of 13 bytes. -/
def longDir : CStr := ⟨ascii "/tmp/filetest".toList, by decide⟩

/-- **`x0000` is created** in place of both files that are asked for. -/
theorem createFiles_cut_off :
    (createFiles longDir .increment 2 (onlyDir longDir)).node 0 (fileName 0) = none ∧
    (createFiles longDir .increment 2 (onlyDir longDir)).node 0 (fileName 1) = none ∧
    (createFiles longDir .increment 2 (onlyDir longDir)).node 0
      ⟨ascii "x0000".toList, by decide⟩ = some (.file [0]) := by
  decide +kernel

/-! ## Deleting -/

section

variable {directory : CStr} {d : Nat} {fs : Fs} {nm : FileName}
  {qsort : List FileName → List FileName}

theorem hasPrefix_iff : hasPrefix nm = true ↔ ∃ s, nm.bytes = 120 :: s := by
  rw [hasPrefix, decide_eq_true_iff, strncmp_eq_zero]
  constructor
  · rintro ⟨s, hs⟩
    exact ⟨s, hs.symm⟩
  · rintro ⟨s, hs⟩
    exact ⟨s, hs.symm⟩

theorem hasPrefix_fileName (n : Nat) : hasPrefix (fileName n) = true :=
  hasPrefix_iff.mpr ⟨decimalPad 6 n, rfl⟩

/-- The names that are collected. -/
theorem collect_eq (entries filenames : List FileName) (h : filenames.length < MAX_FILES) :
    collect entries filenames = (filenames ++ entries.filter hasPrefix).take MAX_FILES := by
  induction entries generalizing filenames with
  | nil =>
    rw [List.filter_nil, List.append_nil, List.take_of_length_le (Nat.le_of_lt h)]
    rfl
  | cons entry entries ih =>
    rw [collect]
    by_cases hp : hasPrefix entry = true
    · have hlen : (filenames ++ [entry]).length = filenames.length + 1 := List.length_append
      have hassoc : filenames ++ entry :: entries.filter hasPrefix =
          (filenames ++ [entry]) ++ entries.filter hasPrefix := by
        rw [List.append_assoc]
        rfl
      rw [if_pos hp, List.filter_cons_of_pos hp, hassoc]
      by_cases hfull : MAX_FILES ≤ filenames.length + 1
      · rw [if_pos hfull, List.take_left' (by omega)]
      · rw [if_neg hfull]
        exact ih _ (by omega)
    · rw [if_neg hp, List.filter_cons_of_neg hp]
      exact ih _ h

theorem collect_nil (entries : List FileName) :
    collect entries [] = (entries.filter hasPrefix).take MAX_FILES :=
  collect_eq entries [] (by decide)

theorem hasPrefix_of_mem_take {entries : List FileName}
    (h : nm ∈ (entries.filter hasPrefix).take MAX_FILES) : hasPrefix nm = true :=
  (List.mem_filter.mp (List.mem_of_mem_take h)).2

/-- What is left of a name of which `k` bytes fit into the buffer. -/
def cut (k : Nat) (nm : FileName) : FileName := (FileName.of? (nm.bytes.take k)).getD nm

theorem bytes_cut {k : Nat} (hk : 0 < k) (hp : hasPrefix nm = true) :
    (cut k nm).bytes = nm.bytes.take k := by
  obtain ⟨s, hs⟩ := hasPrefix_iff.mp hp
  obtain ⟨k, rfl⟩ := Nat.exists_eq_succ_of_ne_zero (Nat.pos_iff_ne_zero.mp hk)
  have hcons : nm.bytes.take (k + 1) = 120 :: s.take k := by rw [hs, List.take_succ_cons]
  have hvalid : nm.bytes.take (k + 1) ≠ [] ∧ SLASH ∉ nm.bytes.take (k + 1) ∧
      0 ∉ nm.bytes.take (k + 1) ∧ nm.bytes.take (k + 1) ≠ [46] ∧
      nm.bytes.take (k + 1) ≠ [46, 46] := by
    refine ⟨?_, fun h => nm.valid.2.1 (List.mem_of_mem_take h),
      fun h => nm.valid.2.2.1 (List.mem_of_mem_take h), ?_, ?_⟩
    · rw [hcons]
      exact List.cons_ne_nil _ _
    · rw [hcons]
      exact fun h => absurd (List.cons.inj h).1 (by decide)
    · rw [hcons]
      exact fun h => absurd (List.cons.inj h).1 (by decide)
  have hof : FileName.of? (nm.bytes.take (k + 1)) = some ⟨nm.bytes.take (k + 1), hvalid⟩ :=
    dif_pos hvalid
  rw [cut, hof, Option.getD_some]

theorem hasPrefix_cut {k : Nat} (hk : 0 < k) (hp : hasPrefix nm = true) :
    hasPrefix (cut k nm) = true := by
  obtain ⟨s, hs⟩ := hasPrefix_iff.mp hp
  obtain ⟨k, rfl⟩ := Nat.exists_eq_succ_of_ne_zero (Nat.pos_iff_ne_zero.mp hk)
  exact hasPrefix_iff.mpr ⟨s.take k, by rw [bytes_cut hk hp, hs, List.take_succ_cons]⟩

theorem cut_eq_self {k : Nat} (hk : 0 < k) (hp : hasPrefix nm = true) (h : nm.bytes.length ≤ k) :
    cut k nm = nm := by
  apply FileName.ext
  rw [bytes_cut hk hp, List.take_of_length_le h]

/-- The path of a file that is to be removed. -/
theorem snprintf_pathIn (hlen : directory.strlen < 254) (hp : hasPrefix nm = true) :
    (snprintf 256 (pathIn directory nm)).bytes =
      directory.bytes ++ SLASH :: (cut (254 - directory.strlen) nm).bytes := by
  rw [bytes_cut (by omega) hp]
  exact take_pathIn (by omega)

/-- The names that are removed. -/
def removed (directory : CStr) (qsort : List FileName → List FileName) (entries : List FileName) :
    List FileName :=
  (qsort (collect entries [])).map (cut (254 - directory.strlen))

theorem mem_removed (hqsort : Qsort qsort) {entries : List FileName} :
    nm ∈ removed directory qsort entries ↔
      ∃ s ∈ (entries.filter hasPrefix).take MAX_FILES, cut (254 - directory.strlen) s = nm := by
  rw [removed, List.mem_map, collect_nil]
  simp only [(hqsort.perm _).mem_iff]

/-- The file system behind the loop that removes the files. -/
theorem removeLoop_fs (directory : CStr) (nms : List FileName) (fs : Fs) :
    (removeLoop directory nms fs).2 =
      nms.foldl (fun fs nm => fs.remove (snprintf 256 (pathIn directory nm))) fs := by
  induction nms generalizing fs with
  | nil => rfl
  | cons nm nms ih => exact ih _

/-- **Deleting.** -/
theorem deleteFiles_eq (hqsort : Qsort qsort) (hlen : directory.strlen < 254)
    (hdir : fs.opendir directory = some d) (hfiles : ∀ nm, fs.node d nm ≠ some .dir)
    (entries : List FileName) :
    (deleteFiles directory qsort entries fs).2 =
      fs.putAll d (removed directory qsort entries) none := by
  have hdirAt : fs.dirAt (directory.bytes ++ [SLASH]) = some d :=
    (Option.ite_none_left_eq_some.mp hdir).2
  rw [deleteFiles, hdir]
  dsimp only
  rw [removeLoop_fs]
  refine Fs.foldl_assign _ ?_ hdirAt (fun h => nomatch h) (fun nm _ => hfiles _)
  intro nm hnm
  rw [(hqsort.perm _).mem_iff, collect_nil] at hnm
  exact snprintf_pathIn hlen (hasPrefix_of_mem_take hnm)

/-- A name that is short is removed iff it has been collected, … -/
theorem mem_removed_of_short (hqsort : Qsort qsort) {entries : List FileName}
    (hnm : nm.bytes.length < 254 - directory.strlen) :
    nm ∈ removed directory qsort entries ↔ nm ∈ (entries.filter hasPrefix).take MAX_FILES := by
  rw [mem_removed hqsort]
  have hself : ∀ s ∈ (entries.filter hasPrefix).take MAX_FILES,
      s.bytes.length ≤ 254 - directory.strlen → cut (254 - directory.strlen) s = s := by
    intro s hs
    exact cut_eq_self (by omega) (hasPrefix_of_mem_take hs)
  constructor
  · rintro ⟨s, hs, rfl⟩
    -- what is cut off is not short
    have hbytes := bytes_cut (by omega : 0 < 254 - directory.strlen)
      (hasPrefix_of_mem_take hs)
    rw [hbytes, List.length_take] at hnm
    rw [hself s hs (by omega)]
    exact hs
  · intro h
    exact ⟨nm, h, hself nm h (Nat.le_of_lt hnm)⟩

/-- … and one for which there is no room in the buffer is not removed. -/
theorem not_mem_removed_of_long (hqsort : Qsort qsort) {entries : List FileName}
    (hlen : directory.strlen < 254) (hnm : 254 - directory.strlen < nm.bytes.length) :
    nm ∉ removed directory qsort entries := by
  rw [mem_removed hqsort]
  rintro ⟨s, hs, rfl⟩
  rw [bytes_cut (by omega) (hasPrefix_of_mem_take hs), List.length_take] at hnm
  omega

end

/-! ## Before and after -/

/-- Everything that was in the directory before is there again, and nothing else, apart from files
    that were overwritten. -/
def Restored (d : Nat) (nms : List FileName) (fs fs' : Fs) : Prop :=
  ∀ nm, ¬(nm ∈ nms ∧ (fs.node d nm).isSome) → fs'.node d nm = fs.node d nm

section

variable {t : Test} {directory num : CStr} {fs : Fs} {d numFiles : Nat}
  {before entries : List FileName} {nm : FileName} {qsort : List FileName → List FileName}

theorem short_of_mem_names
    (hfit : ∀ i < numFiles, (pathIn directory (fileName (t.num i))).strlen < 20)
    (hnm : nm ∈ names t numFiles) :
    hasPrefix nm = true ∧ nm.bytes.length < 254 - directory.strlen := by
  obtain ⟨i, hi, rfl⟩ := List.mem_map.mp hnm
  have hlt := hfit i (List.mem_range.mp hi)
  rw [strlen_pathIn] at hlt
  exact ⟨hasPrefix_fileName _, by omega⟩

/-- The names of two lists in any order. -/
structure Order (before nms entries : List FileName) : Prop where
  nodup : entries.Nodup
  mem_iff : ∀ nm, nm ∈ entries ↔ nm ∈ nms ∨ nm ∈ before

/-- What has been created is listed with what was there. -/
theorem lists_created_iff (hbefore : fs.Lists d before) (nms : List FileName) :
    (fs.putAll d nms (some (.file [0]))).Lists d entries ↔ Order before nms entries := by
  have hnode : ∀ nm, ((fs.putAll d nms (some (.file [0]))).node d nm).isSome ↔
      nm ∈ nms ∨ nm ∈ before := by
    intro nm
    rw [Fs.node_putAll, hbefore.mem_iff]
    by_cases h : nm ∈ nms
    · simp [h]
    · simp [h]
  constructor
  · intro h
    exact ⟨h.nodup, fun nm => (h.mem_iff nm).trans (hnode nm)⟩
  · intro h
    exact ⟨h.nodup, fun nm => (h.mem_iff nm).trans (hnode nm).symm⟩

/-- **Restored** means: what is new is removed, and what is old is not. -/
theorem restored_iff (hbefore : fs.Lists d before) (nms rms : List FileName) :
    Restored d nms fs ((fs.putAll d nms (some (.file [0]))).putAll d rms none) ↔
      (∀ nm ∈ nms, nm ∉ before → nm ∈ rms) ∧ (∀ nm ∈ before, nm ∉ nms → nm ∉ rms) := by
  have hafter : ∀ nm, ((fs.putAll d nms (some (.file [0]))).putAll d rms none).node d nm =
      if nm ∈ rms then none else if nm ∈ nms then some (.file [0]) else fs.node d nm := by
    intro nm
    rw [Fs.node_putAll, Fs.node_putAll]
    simp only [true_and]
  have hnone : ∀ {nm}, nm ∉ before → fs.node d nm = none := by
    intro nm hnot
    exact Option.not_isSome_iff_eq_none.mp fun h => hnot ((hbefore.mem_iff nm).mpr h)
  constructor
  · intro h
    constructor
    · intro nm hnm hnot
      by_contra hrm
      have hnode := h nm fun hex => hnot ((hbefore.mem_iff nm).mpr hex.2)
      rw [hafter, if_neg hrm, if_pos hnm, hnone hnot] at hnode
      nomatch hnode
    · intro nm hnm hnot hrm
      have hnode := h nm fun hex => hnot hex.1
      have hsome := (hbefore.mem_iff nm).mp hnm
      rw [← hnode, hafter, if_pos hrm] at hsome
      nomatch hsome
  · rintro ⟨hnew, hold⟩ nm hex
    rw [hafter]
    by_cases hb : nm ∈ before
    · have hnm : nm ∉ nms := fun h => hex ⟨h, (hbefore.mem_iff nm).mp hb⟩
      rw [if_neg (hold nm hb hnm), if_neg hnm]
    · rw [hnone hb]
      by_cases hnm : nm ∈ nms
      · rw [if_pos (hnew nm hnm hb)]
      · rw [if_neg hnm, ite_self]

/-- The names with the prefix behind `create_files`, each once. -/
def prefixed (before nms : List FileName) : List FileName :=
  (before.filter hasPrefix ++ nms).dedup

section

variable {nms : List FileName}

/-- However the directory is read, these are found. -/
theorem Order.length_filter (h : Order before nms entries) (hnms : ∀ nm ∈ nms, hasPrefix nm = true) :
    (entries.filter hasPrefix).length = (prefixed before nms).length := by
  have hperm : (entries.filter hasPrefix).Perm (before.filter hasPrefix ++ nms).dedup := by
    rw [List.perm_ext_iff_of_nodup (h.nodup.filter _) (List.nodup_dedup _)]
    intro nm
    rw [List.mem_filter, h.mem_iff, List.mem_dedup, List.mem_append, List.mem_filter]
    constructor
    · rintro ⟨hnm | hb, hp⟩
      · exact Or.inr hnm
      · exact Or.inl ⟨hb, hp⟩
    · rintro (⟨hb, hp⟩ | hnm)
      · exact ⟨Or.inr hb, hp⟩
      · exact ⟨Or.inl hnm, hnms nm hnm⟩
  exact hperm.length_eq

theorem Order.perm {entries' : List FileName} (h : Order before nms entries)
    (hperm : entries'.Perm entries) : Order before nms entries' :=
  ⟨hperm.nodup_iff.mpr h.nodup, fun nm => hperm.mem_iff.trans (h.mem_iff nm)⟩

theorem exists_order (before nms : List FileName) : ∃ entries, Order before nms entries := by
  refine ⟨(nms ++ before).dedup, List.nodup_dedup _, fun nm => ?_⟩
  rw [List.mem_dedup, List.mem_append]

/-- Any name can come first, … -/
theorem exists_order_first (h : nm ∈ nms ∨ nm ∈ before) : ∃ rest, Order before nms (nm :: rest) := by
  obtain ⟨entries, hentries⟩ := exists_order before nms
  have hmem := (hentries.mem_iff nm).mpr h
  exact ⟨entries.erase nm, hentries.perm (List.perm_cons_erase hmem).symm⟩

/-- … or last. -/
theorem exists_order_last (h : nm ∈ nms ∨ nm ∈ before) : ∃ rest, Order before nms (rest ++ [nm]) := by
  obtain ⟨rest, hrest⟩ := exists_order_first h
  exact ⟨rest, hrest.perm (List.perm_append_singleton nm rest)⟩

end

/-- If there are too many names, the last one is not collected. -/
theorem Order.last_not_collected {nms rest : List FileName} (h : Order before nms (rest ++ [nm]))
    (hnms : ∀ nm ∈ nms, hasPrefix nm = true) (hnm : nm ∈ nms)
    (hmany : MAX_FILES < (prefixed before nms).length) :
    nm ∉ ((rest ++ [nm]).filter hasPrefix).take MAX_FILES := by
  intro hmem
  have hcount := h.length_filter hnms
  have hsplit : (rest ++ [nm]).filter hasPrefix = rest.filter hasPrefix ++ [nm] := by
    rw [List.filter_append, List.filter_cons_of_pos (hnms nm hnm)]
    rfl
  rw [hsplit, List.length_append, List.length_singleton] at hcount
  rw [hsplit, List.take_append_of_le_length (by omega)] at hmem
  have hrest : nm ∈ rest := (List.mem_filter.mp (List.mem_of_mem_take hmem)).1
  exact (List.nodup_append.mp h.nodup).2.2 nm hrest nm (List.mem_singleton.mpr rfl) rfl

/-- `main` with a number that it accepts. -/
theorem main_eq (hqsort : Qsort qsort) (hnum : 0 < atoi num.bytes)
    (hdir : fs.opendir directory = some d)
    (hfiles : ∀ nm, fs.node d nm ≠ some .dir)
    (hfit : ∀ i < (atoi num.bytes).toNat, (pathIn directory (fileName (t.num i))).strlen < 20)
    (entries : List FileName) :
    createFiles directory t (atoi num.bytes).toNat fs =
        fs.putAll d (names t (atoi num.bytes).toNat) (some (.file [0])) ∧
      (main directory qsort t num entries fs).2 =
        (fs.putAll d (names t (atoi num.bytes).toNat) (some (.file [0]))).putAll d
          (removed directory qsort entries) none ∧
      directory.strlen < 254 := by
  have hdirAt : fs.dirAt (directory.bytes ++ [SLASH]) = some d :=
    (Option.ite_none_left_eq_some.mp hdir).2
  have hcreated := createFiles_eq hfit hdirAt fun i _ => hfiles _
  have hlen : directory.strlen < 254 := by
    have hlt := hfit 0 (by omega)
    rw [strlen_pathIn] at hlt
    omega
  refine ⟨hcreated, ?_, hlen⟩
  rw [main, if_neg (by omega), hcreated]
  refine deleteFiles_eq hqsort hlen ?_ ?_ entries
  · rw [Fs.opendir, Fs.dirAt_putAll]
    exact hdir
  · intro nm
    rw [Fs.node_putAll]
    split
    · exact fun h => nomatch h
    · exact hfiles nm

end

/-- What has to be removed is and nothing else, in every order, iff … -/
theorem forall_order_iff {directory : CStr} {before nms : List FileName}
    {qsort : List FileName → List FileName} (hqsort : Qsort qsort) (hlen : directory.strlen < 254)
    (hnms : ∀ nm ∈ nms, hasPrefix nm = true ∧ nm.bytes.length < 254 - directory.strlen) :
    (∀ entries, Order before nms entries →
      (∀ nm ∈ nms, nm ∉ before → nm ∈ removed directory qsort entries) ∧
      (∀ nm ∈ before, nm ∉ nms → nm ∉ removed directory qsort entries)) ↔
    (∀ nm ∈ before, hasPrefix nm → nm ∉ nms → 256 ≤ (pathIn directory nm).strlen) ∧
    ((prefixed before nms).length ≤ MAX_FILES ∨ ∀ nm ∈ nms, nm ∈ before) := by
  constructor
  · intro h
    constructor
    · intro nm hb hp hnot
      by_contra hfit
      rw [strlen_pathIn] at hfit
      -- it is collected if it comes first
      obtain ⟨rest, horder⟩ : ∃ rest, Order before nms (nm :: rest) := exists_order_first (Or.inr hb)
      refine (h _ horder).2 nm hb hnot
        ((mem_removed hqsort).mpr ⟨nm, ?_, cut_eq_self (by omega) hp (by omega)⟩)
      rw [List.filter_cons_of_pos hp]
      exact List.mem_cons_self
    · by_contra hroom
      rw [not_or, not_le] at hroom
      obtain ⟨hmany, hnew⟩ := hroom
      obtain ⟨nm, hnm, hb⟩ : ∃ nm ∈ nms, nm ∉ before := by simpa using hnew
      -- it is not collected if it comes last
      obtain ⟨rest, horder⟩ : ∃ rest, Order before nms (rest ++ [nm]) :=
        exists_order_last (Or.inl hnm)
      have hrm := (h _ horder).1 nm hnm hb
      rw [mem_removed_of_short hqsort (hnms nm hnm).2] at hrm
      exact horder.last_not_collected (fun nm hnm => (hnms nm hnm).1) hnm hmany hrm
  · rintro ⟨hlong, hroom⟩ entries horder
    constructor
    · intro nm hnm hb
      have hcount := horder.length_filter fun nm hnm => (hnms nm hnm).1
      have hle := hroom.resolve_right fun hall => hb (hall nm hnm)
      rw [mem_removed_of_short hqsort (hnms nm hnm).2, List.take_of_length_le (by omega),
        List.mem_filter]
      exact ⟨(horder.mem_iff nm).mpr (Or.inl hnm), (hnms nm hnm).1⟩
    · intro nm hb hnot hrm
      -- what is removed has the prefix and is not long
      obtain ⟨s, hs, hcut⟩ := (mem_removed hqsort).mp hrm
      have hps : hasPrefix s = true := hasPrefix_of_mem_take hs
      have hp : hasPrefix nm = true := hcut ▸ hasPrefix_cut (by omega) hps
      have hlt := hlong nm hb hp hnot
      rw [strlen_pathIn] at hlt
      exact not_mem_removed_of_long hqsort hlen (by omega) hrm

/-- **The directory is restored**, in whatever order it is read, if and only if it had no other file
    with the prefix whose path fits into the buffer, and there is room for all names that are then
    found, unless all files that are created had been there. -/
theorem main_restores_iff (directory num : CStr) (qsort : List FileName → List FileName) (t : Test)
    (fs : Fs) (d : Nat) (before : List FileName) (hqsort : Qsort qsort)
    (hnum : 0 < atoi num.bytes) (hdir : fs.opendir directory = some d)
    (hbefore : fs.Lists d before) (hfiles : ∀ nm, fs.node d nm ≠ some .dir)
    (hfit : ∀ i < (atoi num.bytes).toNat, (pathIn directory (fileName (t.num i))).strlen < 20) :
    (∀ entries, (createFiles directory t (atoi num.bytes).toNat fs).Lists d entries →
      Restored d (names t (atoi num.bytes).toNat) fs
        (main directory qsort t num entries fs).2) ↔
    (∀ nm ∈ before, hasPrefix nm → nm ∉ names t (atoi num.bytes).toNat →
      256 ≤ (pathIn directory nm).strlen) ∧
    ((prefixed before (names t (atoi num.bytes).toNat)).length ≤ MAX_FILES ∨
      ∀ nm ∈ names t (atoi num.bytes).toNat, nm ∈ before) := by
  obtain ⟨hcreated, -, hlen⟩ := main_eq hqsort hnum hdir hfiles hfit []
  rw [← forall_order_iff hqsort hlen fun nm => short_of_mem_names hfit]
  refine forall_congr' fun entries => ?_
  rw [hcreated, lists_created_iff hbefore, (main_eq hqsort hnum hdir hfiles hfit entries).2.1,
    restored_iff hbefore]

/-- `1`. -/
def num1 : CStr := ⟨ascii ['1'], by decide⟩

theorem lists_onlyDir (directory : CStr) : (onlyDir directory).Lists 0 [] :=
  ⟨List.nodup_nil, fun _ => ⟨fun h => (nomatch h), fun h => (nomatch h)⟩⟩

/-- The numbers 7, 5 and 7 again. -/
def rand757 (i : Nat) : Nat := if i = 1 then 1000005 else 7

/-- `3`. -/
def num3 : CStr := ⟨ascii ['3'], by decide⟩

/-- `a`. -/
def nameA : FileName := ⟨ascii ['a'], by decide⟩

/-- A directory with the files `a` and `x000005`. -/
def withA : Fs :=
  { onlyDir dirD with node := fun _ nm =>
      if nm = nameA then some (.file [1]) else if nm = fileName 5 then some (.file [2]) else none }

theorem lists_withA : withA.Lists 0 [nameA, fileName 5] := by
  refine ⟨by decide +kernel, fun nm => ?_⟩
  show nm ∈ [nameA, fileName 5] ↔ (if nm = nameA then some (Node.file [1])
    else if nm = fileName 5 then some (.file [2]) else none).isSome
  by_cases ha : nm = nameA
  · simp [ha]
  · by_cases h5 : nm = fileName 5
    · subst h5
      simp [ha]
    · simp [ha, h5]

/-- With other files, one of which is overwritten: `a` is there again, and `x000007` is not. -/
theorem main_restores_withA : withA.Lists 0 [nameA, fileName 5] ∧
    ∀ entries, (createFiles dirD (.random rand757) (atoi num3.bytes).toNat withA).Lists 0 entries →
      Restored 0 (names (.random rand757) (atoi num3.bytes).toNat) withA
        (main dirD sortNames (.random rand757) num3 entries withA).2 := by
  have hfiles : ∀ nm, withA.node 0 nm ≠ some .dir := by
    intro nm
    show (if nm = nameA then some (Node.file [1])
      else if nm = fileName 5 then some (.file [2]) else none) ≠ _
    split
    · exact fun h => nomatch h
    · split
      · exact fun h => nomatch h
      · exact fun h => nomatch h
  refine ⟨lists_withA, ?_⟩
  exact (main_restores_iff dirD num3 sortNames (.random rand757) withA 0 [nameA, fileName 5]
    qsort_sortNames (by decide +kernel) (by decide +kernel) lists_withA hfiles
    (by decide +kernel)).mpr ⟨by decide +kernel, Or.inl (by decide +kernel)⟩

/-- `xa`. -/
def nameXa : FileName := ⟨ascii ['x', 'a'], by decide⟩

/-- A directory with the file `xa`. -/
def withXa : Fs := { onlyDir dirD with node := fun _ nm => if nm = nameXa then some (.file [1]) else none }

theorem lists_withXa : withXa.Lists 0 [nameXa] := by
  refine ⟨List.nodup_singleton _, fun nm => ?_⟩
  show nm ∈ [nameXa] ↔ (if nm = nameXa then some (Node.file [1]) else none).isSome
  rw [List.mem_singleton]
  by_cases h : nm = nameXa
  · simp [h]
  · simp [h]

/-- **A file that was there** is deleted because its name begins with an `x`. -/
theorem main_deletes_others :
    (createFiles dirD .increment 1 withXa).Lists 0 [nameXa, fileName 0] ∧
    withXa.node 0 nameXa = some (.file [1]) ∧
    (main dirD sortNames .increment num1 [nameXa, fileName 0] withXa).2.node 0 nameXa = none := by
  refine ⟨?_, by decide +kernel, by decide +kernel⟩
  have hcreated : createFiles dirD .increment 1 withXa =
      withXa.putAll 0 [fileName 0] (some (.file [0])) :=
    createFiles_eq (by decide +kernel) (by decide +kernel) (by decide +kernel)
  rw [hcreated, lists_created_iff lists_withXa]
  refine ⟨by decide +kernel, fun nm => ?_⟩
  rw [List.mem_cons, List.mem_singleton, List.mem_singleton, or_comm]

end LinuxInterface.TestFiles
