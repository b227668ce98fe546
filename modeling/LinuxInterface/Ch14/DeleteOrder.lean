/-
  ch14/test_random.c: the order in which `delete_files` removes what `create_files` has made.

  1. **The files that are removed** — `delete_files` returns them in the order in which they are
     removed, each with its directory.  They are all that it changes (`removeLoop_takeOut`).

  2. **The files that are made** — their names are `x` and six digits, or what is left of them in the
     buffer: for a given directory all names have one length (`Made.bytes`), and if its path fills
     the buffer there is only one (`Made.unique`).

  3. **The order** — names of one length are in the order of their numbers, so the files are removed
     by increasing numbers, whatever `qsort` does as long as it sorts (`removals_increasing`).
-/
import LinuxInterface.Ch14.TestFiles

namespace LinuxInterface.TestFiles

open LinuxInterface

/-! ## The files that are removed -/

section

variable {directory : CStr} {fs : Fs} {d : Nat} {filenames : List FileName}

/-- The loop takes out these and does nothing else. -/
theorem removeLoop_takeOut (filenames : List FileName) (fs : Fs) :
    (removeLoop directory filenames fs).2 = fs.takeOut (removeLoop directory filenames fs).1 := by
  induction filenames generalizing fs with
  | nil => rfl
  | cons nm nms ih =>
    have hfirst : fs.remove (snprintf 256 (pathIn directory nm)) =
        fs.takeOut (fs.removes (snprintf 256 (pathIn directory nm))).toList := Fs.remove_eq fs _
    show (removeLoop directory nms (fs.remove _)).2 = fs.takeOut (_ ++ _)
    rw [ih, Fs.takeOut, Fs.takeOut, List.foldl_append]
    congr 1

/-- **All files of the array** are removed if they are there and their paths fit. -/
theorem removeLoop_eq (hdir : fs.dirAt (directory.bytes ++ [SLASH]) = some d)
    (hnodup : filenames.Nodup) (hfit : ∀ nm ∈ filenames, (pathIn directory nm).strlen < 256)
    (hfile : ∀ nm ∈ filenames, ∃ content, fs.node d nm = some (.file content)) :
    (removeLoop directory filenames fs).1 = filenames.map (Prod.mk d) := by
  induction filenames generalizing fs with
  | nil => rfl
  | cons nm nms ih =>
    obtain ⟨hfitnm, hfit⟩ := List.forall_mem_cons.mp hfit
    obtain ⟨⟨content, hnode⟩, hfile⟩ := List.forall_mem_cons.mp hfile
    obtain ⟨hnotin, hnodup⟩ := List.nodup_cons.mp hnodup
    have hpath : (snprintf 256 (pathIn directory nm)).bytes = directory.bytes ++ SLASH :: nm.bytes :=
      snprintf_of_lt hfitnm
    have hremoves := Fs.removes_append hdir hpath hnode
    have hfs : fs.remove (snprintf 256 (pathIn directory nm)) = fs.put d nm none := by
      rw [Fs.remove_eq, hremoves]
      rfl
    rw [removeLoop, hremoves, hfs]
    refine congrArg ((d, nm) :: ·) (ih hdir hnodup hfit ?_)
    -- the others are still there
    intro nm' hnm'
    obtain ⟨content', hnode'⟩ := hfile nm' hnm'
    have hne : ¬(d = d ∧ nm' = nm) := fun h => hnotin (h.2 ▸ hnm')
    exact ⟨content', (if_neg hne).trans hnode'⟩

end

/-! ## The files that are made -/

section

variable {directory : CStr} {t : Test} {numFiles d : Nat} {fs : Fs} {nm nm' : FileName}

/-- The path of round `i` in `create_files`. -/
def createPath (directory : CStr) (t : Test) (i : Nat) : List UInt8 :=
  (snprintf 20 (pathIn directory (fileName (t.num i)))).bytes

/-- `create_files` has made a file under this name: one of its paths stands for it, and it is not the
    name of a subdirectory, for which `fopen` fails. -/
structure Made (directory : CStr) (t : Test) (numFiles : Nat) (fs : Fs) (d : Nat) (nm : FileName) :
    Prop where
  resolves : ∃ i < numFiles, fs.resolve (createPath directory t i) = some (d, nm)
  file : fs.node d nm ≠ some .dir

/-- A file that has been made is there, and no file becomes a directory. -/
theorem node_createFiles (hfile : fs.node d nm ≠ some .dir) (numFiles : Nat) :
    (createFiles directory t numFiles fs).node d nm ≠ some .dir ∧
      (Made directory t numFiles fs d nm →
        (createFiles directory t numFiles fs).node d nm = some (.file [0])) := by
  induction numFiles with
  | zero =>
    refine ⟨hfile, ?_⟩
    rintro ⟨⟨i, hi, -⟩, -⟩
    exact absurd hi (Nat.not_lt_zero i)
  | succ k ih =>
    have hresolve : (createFiles directory t k fs).resolve (createPath directory t k) =
        fs.resolve (createPath directory t k) := by
      rw [Fs.resolve, dirAt_createFiles]
      rfl
    rw [createFiles_succ]
    show (Fs.assign _ (createPath directory t k) _).node d nm ≠ _ ∧
      (_ → (Fs.assign _ (createPath directory t k) _).node d nm = _)
    rw [Fs.node_assign, hresolve]
    by_cases hk : fs.resolve (createPath directory t k) = some (d, nm)
    · rw [if_pos ⟨hk, ih.1⟩]
      exact ⟨by simp, fun _ => rfl⟩
    · rw [if_neg fun h => hk h.1]
      refine ⟨ih.1, fun hmade => ih.2 ⟨?_, hfile⟩⟩
      obtain ⟨i, hi, hres⟩ := hmade.resolves
      have hne : i ≠ k := fun h => hk (h ▸ hres)
      exact ⟨i, by omega, hres⟩

theorem Made.node (h : Made directory t numFiles fs d nm) :
    (createFiles directory t numFiles fs).node d nm = some (.file [0]) :=
  (node_createFiles h.file numFiles).2 h

theorem length_decimalPad_six {n : Nat} (h : n < 1000000) : (decimalPad 6 n).length = 6 := by
  have hle : (decimal n).length ≤ 6 := length_decimal (by decide) h
  rw [length_decimalPad]
  omega

/-- **The names** are what is left of `xNNNNNN`. -/
theorem Made.bytes {rand : Nat → Nat} (hlen : directory.strlen < 19)
    (h : Made directory (.random rand) numFiles fs d nm) :
    ∃ digits, nm.bytes = 120 :: digits ∧ (∀ c ∈ digits, isdigit c = true) ∧
      digits.length = min (17 - directory.strlen) 6 := by
  obtain ⟨i, -, hres⟩ := h.resolves
  have hpath : createPath directory (.random rand) i = directory.bytes ++ SLASH ::
      (fileName (rand i % 1000000)).bytes.take (18 - directory.strlen) := take_pathIn hlen
  rw [hpath] at hres
  have hname := Fs.eq_of_resolve_append
    (fun hmem => (fileName (rand i % 1000000)).valid.2.1 (List.mem_of_mem_take hmem)) hres
  -- the path does not end at the slash
  obtain ⟨k, hk⟩ : ∃ k, 18 - directory.strlen = k + 1 := by
    apply Nat.exists_eq_succ_of_ne_zero
    intro h0
    refine nm.valid.1 ?_
    rw [hname, h0, List.take_zero]
  refine ⟨(decimalPad 6 (rand i % 1000000)).take k, ?_, ?_, ?_⟩
  · rw [hname, hk]
    rfl
  · intro c hc
    exact isdigit_of_mem_decimalPad (List.mem_of_mem_take hc)
  · rw [List.length_take, length_decimalPad_six (Nat.mod_lt _ (by decide))]
    omega

/-- With a path that fills the buffer, all rounds open the same. -/
theorem Made.unique (hlen : 19 ≤ directory.strlen) (h : Made directory t numFiles fs d nm)
    (h' : Made directory t numFiles fs d nm') : nm = nm' := by
  have hpath : ∀ i, createPath directory t i = directory.bytes.take 19 := by
    intro i
    exact List.take_append_of_le_length hlen
  obtain ⟨i, -, hres⟩ := h.resolves
  obtain ⟨j, -, hres'⟩ := h'.resolves
  rw [hpath] at hres hres'
  exact (Prod.mk.inj (Option.some.inj (hres.symm.trans hres'))).2

end

/-! ## The order -/

/-- The number in a name. -/
def number (nm : FileName) : Nat := value (nm.bytes.drop FILENAME_PREFIX.strlen)

/-- Names of one length are in the order of their numbers. -/
theorem number_lt {a b : FileName} {ds es : List UInt8} (ha : a.bytes = 120 :: ds)
    (hb : b.bytes = 120 :: es) (hds : ∀ c ∈ ds, isdigit c = true) (hes : ∀ c ∈ es, isdigit c = true)
    (hlen : ds.length = es.length) (hle : compare a b ≤ 0) (hne : a ≠ b) : number a < number b := by
  rw [compare_le_zero, ha, hb, List.cons_le_cons_iff] at hle
  have hds_le : ds ≤ es := by
    rcases hle with h | h
    · exact absurd h (UInt8.lt_irrefl 120)
    · exact h.2
  have hlt : ds < es := by
    by_contra hnot
    obtain rfl := List.le_antisymm hds_le hnot
    exact hne (FileName.ext (ha.trans hb.symm))
  rw [number, number, ha, hb]
  exact value_lt_value hds hes hlen hlt

section

variable {directory : CStr} {t : Test} {rand : Nat → Nat} {numFiles d : Nat} {fs : Fs}
  {entries filenames : List FileName} {qsort : List FileName → List FileName}

/-- What is in the array is what has been listed, each once. -/
theorem Qsort.of_entries (hqsort : Qsort qsort) (hnodup : entries.Nodup) :
    (qsort (collect entries [])).Nodup ∧ ∀ nm ∈ qsort (collect entries []), nm ∈ entries := by
  have hsub : (collect entries []).Sublist entries := by
    rw [collect_nil]
    exact (List.take_sublist _ _).trans List.filter_sublist
  have hperm := hqsort.perm (collect entries [])
  refine ⟨hperm.nodup_iff.mpr (hnodup.sublist hsub), ?_⟩
  intro nm hnm
  exact hsub.subset (hperm.mem_iff.mp hnm)

/-- The array, if all paths fit. -/
theorem removeLoop_made (hdir : fs.opendir directory = some d) (hnodup : filenames.Nodup)
    (hmade : ∀ nm ∈ filenames, Made directory t numFiles fs d nm)
    (hfit : ∀ nm ∈ filenames, (pathIn directory nm).strlen < 256) :
    (removeLoop directory filenames (createFiles directory t numFiles fs)).1 =
      filenames.map (Prod.mk d) := by
  refine removeLoop_eq ?_ hnodup hfit ?_
  · rw [dirAt_createFiles]
    exact (Option.ite_none_left_eq_some.mp hdir).2
  · intro nm hnm
    exact ⟨[0], (hmade nm hnm).node⟩

/-- **Names of one length** are in the order of their numbers, and their paths fit. -/
theorem increasing_of_short (hsorted : filenames.Pairwise fun a b => compare a b ≤ 0)
    (hnodup : filenames.Nodup) (hlen : directory.strlen < 19)
    (hmade : ∀ nm ∈ filenames, Made directory (.random rand) numFiles fs d nm) :
    (filenames.Pairwise fun a b => number a < number b) ∧
      ∀ nm ∈ filenames, (pathIn directory nm).strlen < 256 := by
  constructor
  · refine (hsorted.and hnodup).imp_of_mem ?_
    rintro a b ha hb ⟨hle, hne⟩
    obtain ⟨ds, ha, hds, hdslen⟩ := (hmade a ha).bytes hlen
    obtain ⟨es, hb, hes, heslen⟩ := (hmade b hb).bytes hlen
    exact number_lt ha hb hds hes (hdslen.trans heslen.symm) hle hne
  · intro nm hnm
    obtain ⟨digits, hbytes, -, hdigits⟩ := (hmade nm hnm).bytes hlen
    rw [strlen_pathIn, hbytes, List.length_cons, hdigits]
    omega

/-- **Of one name** at most one file is removed. -/
theorem removeLoop_pairwise_of_long {R : Nat × FileName → Nat × FileName → Prop}
    (hnodup : filenames.Nodup) (hlen : 19 ≤ directory.strlen)
    (hmade : ∀ nm ∈ filenames, Made directory t numFiles fs d nm) (fs' : Fs) :
    (removeLoop directory filenames fs').1.Pairwise R := by
  cases filenames with
  | nil => exact List.Pairwise.nil
  | cons a rest =>
    cases rest with
    | nil =>
      show ((fs'.removes (snprintf 256 (pathIn directory a))).toList ++ []).Pairwise R
      rw [List.append_nil]
      cases fs'.removes (snprintf 256 (pathIn directory a)) with
      | none => exact List.Pairwise.nil
      | some r => exact List.pairwise_singleton R r
    | cons b rest =>
      have hb : b ∈ a :: b :: rest := List.mem_cons_of_mem a List.mem_cons_self
      have hab : a = b := (hmade a List.mem_cons_self).unique hlen (hmade b hb)
      exact absurd (hab ▸ List.mem_cons_self) (List.nodup_cons.mp hnodup).1

end

/-- **The files are removed by increasing numbers**, for every directory that holds only what
    `create_files` has made, however it is listed and sorted.  The files of the sorted array are
    removed one after the other, if their paths fit, and nothing else happens. -/
theorem removals_increasing (directory : CStr) (qsort : List FileName → List FileName)
    (rand : Nat → Nat) (numFiles : Nat) (fs : Fs) (d : Nat) (entries : List FileName)
    (hqsort : Qsort qsort) (hdir : fs.opendir directory = some d)
    (hentries : (createFiles directory (.random rand) numFiles fs).Lists d entries)
    (hmade : ∀ nm ∈ entries, Made directory (.random rand) numFiles fs d nm) :
    (deleteFiles directory qsort entries (createFiles directory (.random rand) numFiles fs)).1.Pairwise
      (fun a b => number a.2 < number b.2) ∧
    ((∀ nm ∈ collect entries [], (pathIn directory nm).strlen < 256) →
      (deleteFiles directory qsort entries (createFiles directory (.random rand) numFiles fs)).1 =
        (qsort (collect entries [])).map (Prod.mk d)) ∧
    (deleteFiles directory qsort entries (createFiles directory (.random rand) numFiles fs)).2 =
      (createFiles directory (.random rand) numFiles fs).takeOut
        (deleteFiles directory qsort entries (createFiles directory (.random rand) numFiles fs)).1 := by
  obtain ⟨hnodup, hmem⟩ := hqsort.of_entries hentries.nodup
  have hmade' : ∀ nm ∈ qsort (collect entries []), Made directory (.random rand) numFiles fs d nm := by
    intro nm hnm
    exact hmade nm (hmem nm hnm)
  have hopendir : (createFiles directory (.random rand) numFiles fs).opendir directory = some d := by
    rw [Fs.opendir, dirAt_createFiles]
    exact hdir
  have hloop : deleteFiles directory qsort entries (createFiles directory (.random rand) numFiles fs) =
      removeLoop directory (qsort (collect entries []))
        (createFiles directory (.random rand) numFiles fs) := by
    rw [deleteFiles, hopendir]
  rw [hloop]
  refine ⟨?_, fun hfit => ?_, removeLoop_takeOut _ _⟩
  · by_cases hlen : directory.strlen < 19
    · obtain ⟨hincreasing, hfit⟩ := increasing_of_short (hqsort.sorted _) hnodup hlen hmade'
      rw [removeLoop_made hdir hnodup hmade' hfit, List.pairwise_map]
      exact hincreasing
    · exact removeLoop_pairwise_of_long hnodup (Nat.le_of_not_lt hlen) hmade' _
  · have hperm := hqsort.perm (collect entries [])
    exact removeLoop_made hdir hnodup hmade' fun nm hnm => hfit nm (hperm.mem_iff.mp hnm)

theorem lists_757 :
    (createFiles dirD (.random rand757) 3 (onlyDir dirD)).Lists 0 [fileName 7, fileName 5] := by
  have hcreated : createFiles dirD (.random rand757) 3 (onlyDir dirD) =
      (onlyDir dirD).putAll 0 [fileName 7, fileName 5, fileName 7] (some (.file [0])) :=
    createFiles_eq (by decide +kernel) (by decide +kernel) (by decide +kernel)
  rw [hcreated, lists_created_iff (lists_onlyDir dirD)]
  refine ⟨by decide +kernel, fun nm => ?_⟩
  simp only [List.mem_cons, List.not_mem_nil]
  tauto

/-- Of 7, 5 and 7 again two files are made and removed, the one with the smaller number first. -/
theorem removals_757 :
    (deleteFiles dirD sortNames [fileName 7, fileName 5]
      (createFiles dirD (.random rand757) 3 (onlyDir dirD))).1 = [(0, fileName 5), (0, fileName 7)] ∧
    (deleteFiles dirD sortNames [fileName 7, fileName 5]
      (createFiles dirD (.random rand757) 3 (onlyDir dirD))).1.Pairwise
        (fun a b => number a.2 < number b.2) := by
  have hmade : ∀ nm ∈ [fileName 7, fileName 5],
      Made dirD (.random rand757) 3 (onlyDir dirD) 0 nm := by
    refine List.forall_mem_cons.mpr ⟨?_, List.forall_mem_singleton.mpr ?_⟩
    · exact ⟨⟨0, by decide, by decide +kernel⟩, fun h => nomatch h⟩
    · exact ⟨⟨1, by decide, by decide +kernel⟩, fun h => nomatch h⟩
  have h := removals_increasing dirD sortNames rand757 3 (onlyDir dirD) 0 [fileName 7, fileName 5]
    qsort_sortNames (by decide +kernel) lists_757 hmade
  exact ⟨by decide +kernel, h.1⟩

end LinuxInterface.TestFiles
