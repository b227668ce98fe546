/-
  ch15/6_chmod.c: `chmod a+rX` for a list of files.

  1. **The program** — `apply_chmod` reads the mode of a file and sets another one; where one of the
     two calls fails the program exits, with the files behind it not looked at.

  2. **`a+rX`** — in its own words: what the classes of users may do afterwards, and that nothing
     else has changed (`ARX`).  What the program does to one file is this iff the owner may execute
     whatever somebody may execute (`arx_changed_iff`): it looks at the bit of the owner only.

  3. **The list** — a file is changed if one of the paths in front of the first failure stands for
     it, and once or often makes no difference (`inode_chmodAll`); the status says whether there was
     a failure (`main_status_iff`).  So the program is `a+rX` on a list iff it is on every file that
     is reached (`main_arx_iff`).
-/
import LinuxInterface.Base.CString
import LinuxInterface.Base.Loop
import LinuxInterface.Base.Scanf
import LinuxInterface.Base.Stdio
import LinuxInterface.Ch15.EuidAccess

namespace LinuxInterface.Chmod

open EuidAccess (Stat Perm S_IRUSR S_IRGRP S_IROTH S_IXUSR S_IXGRP S_IXOTH S_IFMT S_IFDIR)

/-! ## The program -/

/-- The files by their numbers, and what has been written. -/
structure World where
  inode : Nat → Stat
  log : List Msg

def World.print (w : World) (m : Msg) : World := { w with log := w.log ++ [m] }

def World.setInode (w : World) (ino : Nat) (st : Stat) : World :=
  { w with inode := Function.update w.inode ino st }

/-- The file that a path stands for, and whether `stat` and `chmod` succeed for it.  This may depend
    on the modes of all files: a directory that cannot be searched hides what is in it. -/
structure Kernel where
  file : CStr → Nat
  statOk : (Nat → Stat) → CStr → Bool
  chmodOk : (Nat → Stat) → CStr → Bool

/-- `new_mode`. -/
def newMode (st : Stat) : Nat :=
  let mode := st.stMode ||| (S_IRUSR ||| S_IRGRP ||| S_IROTH)
  if st.isDir || st.stMode &&& S_IXUSR ≠ 0 then mode ||| (S_IXUSR ||| S_IXGRP ||| S_IXOTH) else mode

/-- What `chmod` does to a file: the twelve bits of the mode are set, the type stays. -/
def setMode (st : Stat) (mode : Nat) : Stat :=
  { st with stMode := st.stMode / 0o10000 * 0o10000 + mode % 0o10000 }

section

variable (sys : Kernel)

/-- `apply_chmod(path)`; an error is the world in which the program exits. -/
def applyChmod (w : World) (path : CStr) : Except World World :=
  if !sys.statOk w.inode path then .error (w.print (.perror (ascii "stat".toList)))
  else
    let st := w.inode (sys.file path)
    if !sys.chmodOk w.inode path then .error (w.print (.perror (ascii "chmod".toList)))
    else
      .ok ((w.setInode (sys.file path) (setMode st (newMode st))).print
        (.stdout (ascii "Updated permissions for '".toList ++ path.bytes ++ ascii "'\n".toList)))

/-- The loop in `main`. -/
def chmodAll (paths : List CStr) (w : World) : Except World World :=
  paths.foldlM (applyChmod sys) w

/-- `main` with the arguments `paths`: the status, and what has become of the world. -/
def main (progname : CStr) (paths : List CStr) (w : World) : Nat × World :=
  -- `argc < 2`
  if paths.isEmpty then
    (EXIT_FAILURE, w.print (.stderr (ascii "Usage: ".toList ++ progname.bytes ++
      ascii " <file1> [file2 ...]\n".toList)))
  else
    match chmodAll sys paths w with
    | .ok w => (EXIT_SUCCESS, w)
    | .error w => (EXIT_FAILURE, w)

/-- The paths in front of the first one for which `stat` or `chmod` fails. -/
def processed : List CStr → World → List CStr
  | [], _ => []
  | path :: paths, w =>
    match applyChmod sys w path with
    | .ok w => path :: processed paths w
    | .error _ => []

end

/-- The world, whether the program has gone on or not. -/
def outcome : Except World World → World
  | .ok w => w
  | .error w => w

/-! ## `a+rX` -/

/-- Where the permission of a class is in a mode. -/
def bitOf (c : EuidAccess.Class) (q : Perm) : Nat := c.shift + q.bit

/-- Somebody may execute the file. -/
def executable (st : Stat) : Prop := ∃ c, st.has c .execute = true

/-- **`chmod a+rX`**: all may read; all may execute a directory or what somebody may execute
    already, and nobody anything else; the other bits are as before. -/
structure ARX (st st' : Stat) : Prop where
  uid : st'.stUid = st.stUid
  gid : st'.stGid = st.stGid
  read : ∀ c, st'.has c .read = true
  execute : ∀ c, st'.has c .execute = true ↔ st.isDir = true ∨ executable st
  others : ∀ b, (∀ c, b ≠ bitOf c .read ∧ b ≠ bitOf c .execute) →
    st'.stMode.testBit b = st.stMode.testBit b

/-- What the program makes of a file. -/
def changed (st : Stat) : Stat := setMode st (newMode st)

/-- A bit for all classes. -/
def forAll (q : Perm) : Nat := 2 ^ bitOf .owner q ||| 2 ^ bitOf .group q ||| 2 ^ bitOf .other q

theorem testBit_forAll (q : Perm) (b : Nat) :
    (forAll q).testBit b = true ↔ ∃ c, b = bitOf c q := by
  rw [forAll, Nat.testBit_or, Nat.testBit_or, Nat.testBit_two_pow, Nat.testBit_two_pow,
    Nat.testBit_two_pow, Bool.or_eq_true, Bool.or_eq_true, decide_eq_true_iff, decide_eq_true_iff,
    decide_eq_true_iff]
  constructor
  · rintro ((h | h) | h)
    · exact ⟨.owner, h.symm⟩
    · exact ⟨.group, h.symm⟩
    · exact ⟨.other, h.symm⟩
  · rintro ⟨c, rfl⟩
    cases c with
    | owner => exact Or.inl (Or.inl rfl)
    | group => exact Or.inl (Or.inr rfl)
    | other => exact Or.inr rfl

/-- A bit for reading is not one for executing. -/
theorem read_ne_execute (c c' : EuidAccess.Class) : bitOf c .read ≠ bitOf c' .execute := by
  cases c with
  | other => cases c' <;> decide
  | group => cases c' <;> decide
  | owner => cases c' <;> decide

section

variable {st : Stat}

/-- When the program enables execution. -/
def Opens (st : Stat) : Prop := st.isDir = true ∨ st.has .owner .execute = true

theorem opens_iff :
    (st.isDir || decide (st.stMode &&& S_IXUSR ≠ 0)) = true ↔ Opens st := by
  rw [Bool.or_eq_true, decide_eq_true_iff]
  exact or_congr_right (EuidAccess.and_two_pow_ne_zero st.stMode 6)

/-- **The new mode**, bit by bit. -/
theorem testBit_newMode (st : Stat) (b : Nat) :
    (newMode st).testBit b = true ↔
      st.stMode.testBit b = true ∨ (∃ c, b = bitOf c .read) ∨
        Opens st ∧ ∃ c, b = bitOf c .execute := by
  have hread : S_IRUSR ||| S_IRGRP ||| S_IROTH = forAll .read := by decide
  have hexecute : S_IXUSR ||| S_IXGRP ||| S_IXOTH = forAll .execute := by decide
  rw [newMode, hread, hexecute, ← testBit_forAll, ← testBit_forAll]
  by_cases hopens : Opens st
  · rw [if_pos (opens_iff.mpr hopens), Nat.testBit_or, Nat.testBit_or, Bool.or_eq_true,
      Bool.or_eq_true, or_assoc]
    simp only [hopens, true_and]
  · rw [if_neg (mt opens_iff.mp hopens), Nat.testBit_or, Bool.or_eq_true]
    simp only [hopens, false_and, or_false]

/-- The bits that are added are permissions. -/
theorem newMode_eq (st : Stat) : ∃ n ∈ [0o444, 0o555], newMode st = st.stMode ||| n := by
  by_cases hopens : Opens st
  · refine ⟨0o555, by decide, ?_⟩
    rw [newMode, if_pos (opens_iff.mpr hopens), Nat.or_assoc]
    rfl
  · refine ⟨0o444, by decide, ?_⟩
    rw [newMode, if_neg (mt opens_iff.mp hopens)]
    rfl

theorem newMode_div (st : Stat) : newMode st / 0o10000 = st.stMode / 0o10000 := by
  obtain ⟨n, hn, heq⟩ := newMode_eq st
  have hzero : n / 2 ^ 12 = 0 := (by decide : ∀ n ∈ [0o444, 0o555], n / 2 ^ 12 = 0) n hn
  rw [heq]
  show (st.stMode ||| n) / 2 ^ 12 = st.stMode / 2 ^ 12
  rw [Nat.or_div_two_pow, hzero, Nat.or_zero]

theorem changed_eq (st : Stat) : changed st = { st with stMode := newMode st } := by
  rw [changed, setMode, ← newMode_div, Nat.div_add_mod']

theorem isDir_changed (st : Stat) : (changed st).isDir = st.isDir := by
  obtain ⟨n, hn, heq⟩ := newMode_eq st
  have hzero : n &&& S_IFMT = 0 := (by decide : ∀ n ∈ [0o444, 0o555], n &&& S_IFMT = 0) n hn
  rw [changed_eq, heq]
  show decide ((st.stMode ||| n) &&& S_IFMT = S_IFDIR) = _
  rw [Nat.and_or_distrib_right, hzero, Nat.or_zero]
  rfl

theorem has_read_changed (st : Stat) (c : EuidAccess.Class) : (changed st).has c .read = true := by
  rw [changed_eq]
  exact (testBit_newMode st _).mpr (Or.inr (Or.inl ⟨c, rfl⟩))

theorem has_execute_changed (st : Stat) (c : EuidAccess.Class) :
    (changed st).has c .execute = true ↔ st.has c .execute = true ∨ Opens st := by
  rw [changed_eq]
  refine (testBit_newMode st _).trans ?_
  constructor
  · rintro (h | ⟨c', h⟩ | h)
    · exact Or.inl h
    · exact absurd h.symm (read_ne_execute c' c)
    · exact Or.inr h.1
  · rintro (h | h)
    · exact Or.inl h
    · exact Or.inr (Or.inr ⟨h, c, rfl⟩)

theorem opens_changed (st : Stat) : Opens (changed st) ↔ Opens st := by
  rw [Opens, isDir_changed, has_execute_changed]
  constructor
  · rintro (h | h | h)
    · exact Or.inl h
    · exact Or.inr h
    · exact h
  · intro h
    exact Or.inr (Or.inr h)

/-- **Again** is as well as once. -/
theorem changed_changed (st : Stat) : changed (changed st) = changed st := by
  have hmode : newMode (changed st) = newMode st := by
    apply Nat.eq_of_testBit_eq
    intro b
    rw [Bool.eq_iff_iff, testBit_newMode (changed st), opens_changed, changed_eq st,
      testBit_newMode st]
    tauto
  rw [changed_eq (changed st), hmode, changed_eq]

/-- **One file**: the program does what `a+rX` says iff the owner may execute what somebody may, or
    it is a directory. -/
theorem arx_changed_iff (st : Stat) : ARX st (changed st) ↔ (executable st → Opens st) := by
  constructor
  · intro h hex
    -- the owner may execute it now
    rcases (has_execute_changed st .owner).mp ((h.execute .owner).mpr (Or.inr hex)) with howner | h
    · exact Or.inr howner
    · exact h
  · intro howner
    refine ⟨?_, ?_, has_read_changed st, ?_, ?_⟩
    · rw [changed_eq]
    · rw [changed_eq]
    · intro c
      rw [has_execute_changed]
      constructor
      · rintro (h | hdir | h)
        · exact Or.inr ⟨c, h⟩
        · exact Or.inl hdir
        · exact Or.inr ⟨.owner, h⟩
      · rintro (hdir | hex)
        · exact Or.inr (Or.inl hdir)
        · exact Or.inr (howner hex)
    · intro b hb
      rw [changed_eq, Bool.eq_iff_iff, testBit_newMode]
      constructor
      · rintro (h | ⟨c, rfl⟩ | ⟨-, c, rfl⟩)
        · exact h
        · exact absurd rfl (hb c).1
        · exact absurd rfl (hb c).2
      · exact Or.inl

end

/-! ## The list -/

section

variable {sys : Kernel} {w w' : World} {path : CStr}

theorem inode_of_error (h : applyChmod sys w path = .error w') : w'.inode = w.inode := by
  unfold applyChmod at h
  split at h
  · obtain rfl := Except.error.inj h
    rfl
  · dsimp only at h
    split at h
    · obtain rfl := Except.error.inj h
      rfl
    · nomatch h

theorem inode_of_ok (h : applyChmod sys w path = .ok w') :
    w'.inode = touch changed w.inode (sys.file path) := by
  unfold applyChmod at h
  split at h
  · nomatch h
  · dsimp only at h
    split at h
    · nomatch h
    · obtain rfl := Except.ok.inj h
      rfl

/-- The loop goes through the files that are reached. -/
theorem chmodAll_eq (sys : Kernel) (paths : List CStr) (w : World) :
    (outcome (chmodAll sys paths w)).inode =
      ((processed sys paths w).map sys.file).foldl (touch changed) w.inode := by
  induction paths generalizing w with
  | nil => rfl
  | cons path paths ih =>
    rw [chmodAll, List.foldlM_cons, processed]
    cases hstep : applyChmod sys w path with
    | error w' => exact inode_of_error hstep
    | ok w' =>
      show (outcome (chmodAll sys paths w')).inode = _
      rw [ih, inode_of_ok hstep]
      rfl

/-- **The loop**: the files that are reached are changed, the others are not. -/
theorem inode_chmodAll (sys : Kernel) (paths : List CStr) (w : World) (ino : Nat) :
    (outcome (chmodAll sys paths w)).inode ino =
      if ino ∈ (processed sys paths w).map sys.file then changed (w.inode ino) else w.inode ino := by
  rw [chmodAll_eq, foldl_touch changed_changed]

theorem main_snd_inode (sys : Kernel) (progname : CStr) (paths : List CStr) (w : World) :
    (main sys progname paths w).2.inode = (outcome (chmodAll sys paths w)).inode := by
  unfold main
  cases paths with
  | nil => rfl
  | cons path paths =>
    rw [List.isEmpty_cons, if_neg Bool.false_ne_true]
    cases chmodAll sys (path :: paths) w with
    | ok w' => rfl
    | error w' => rfl

/-- The paths are processed from the front, and all of them iff the program does not exit. -/
theorem processed_spec (sys : Kernel) (paths : List CStr) (w : World) :
    processed sys paths w <+: paths ∧
      ((∃ w', chmodAll sys paths w = .ok w') ↔ processed sys paths w = paths) := by
  induction paths generalizing w with
  | nil => exact ⟨List.prefix_rfl, fun _ => rfl, fun _ => ⟨w, rfl⟩⟩
  | cons path paths ih =>
    rw [chmodAll, List.foldlM_cons, processed]
    cases hstep : applyChmod sys w path with
    | error w' =>
      refine ⟨?_, ?_, ?_⟩
      · exact List.nil_prefix
      · rintro ⟨w'', h⟩
        nomatch h
      · intro h
        nomatch h
    | ok w' =>
      obtain ⟨hpre, hiff⟩ := ih w'
      refine ⟨(List.prefix_cons_inj path).mpr hpre, hiff.trans ?_⟩
      exact ⟨fun h => congrArg (path :: ·) h, fun h => (List.cons.inj h).2⟩

end

/-- The status says whether all files have been processed. -/
theorem main_status_iff (sys : Kernel) (progname : CStr) (paths : List CStr) (w : World) :
    (main sys progname paths w).1 = EXIT_SUCCESS ↔ paths ≠ [] ∧ processed sys paths w = paths := by
  cases paths with
  | nil => exact ⟨fun h => (nomatch h), fun h => absurd rfl h.1⟩
  | cons path paths =>
    rw [← (processed_spec sys (path :: paths) w).2, main, List.isEmpty_cons,
      if_neg Bool.false_ne_true]
    cases chmodAll sys (path :: paths) w with
    | ok w' => exact ⟨fun _ => ⟨List.cons_ne_nil _ _, w', rfl⟩, fun _ => rfl⟩
    | error w' =>
      refine ⟨fun h => (nomatch h), ?_⟩
      rintro ⟨-, w'', h⟩
      nomatch h

/-- **A list of files**: what is not reached stays as it was, a file that has been processed is not
    changed any more, and the program is `a+rX` if and only if, of the files it reaches, the owner
    may execute all that somebody may execute, directories apart. -/
theorem main_arx_iff (sys : Kernel) (progname : CStr) (paths : List CStr) (w : World) :
    (∀ ino, (∀ p ∈ processed sys paths w, sys.file p ≠ ino) →
      (main sys progname paths w).2.inode ino = w.inode ino) ∧
    (∀ p ∈ processed sys paths w,
      (outcome (applyChmod sys (main sys progname paths w).2 p)).inode =
        (main sys progname paths w).2.inode) ∧
    ((∀ p ∈ processed sys paths w,
        ARX (w.inode (sys.file p)) ((main sys progname paths w).2.inode (sys.file p))) ↔
      ∀ p ∈ processed sys paths w, executable (w.inode (sys.file p)) →
        (w.inode (sys.file p)).isDir = true ∨ (w.inode (sys.file p)).has .owner .execute = true) := by
  have hdone : ∀ p ∈ processed sys paths w,
      (main sys progname paths w).2.inode (sys.file p) = changed (w.inode (sys.file p)) := by
    intro p hp
    rw [main_snd_inode, inode_chmodAll, if_pos (List.mem_map_of_mem hp)]
  refine ⟨?_, ?_, ?_⟩
  · intro ino hino
    rw [main_snd_inode, inode_chmodAll, if_neg]
    intro hmem
    obtain ⟨p, hp, heq⟩ := List.mem_map.mp hmem
    exact hino p hp heq
  · intro p hp
    cases hstep : applyChmod sys (main sys progname paths w).2 p with
    | error w' => exact inode_of_error hstep
    | ok w' =>
      refine (inode_of_ok hstep).trans ?_
      rw [touch, hdone p hp, changed_changed, ← hdone p hp, Function.update_eq_self]
  · refine forall_congr' fun p => forall_congr' fun hp => ?_
    rw [hdone p hp]
    exact arx_changed_iff (w.inode (sys.file p))

/-- A system without failures in which all paths stand for one file. -/
def oneFile : Kernel := ⟨fun _ => 0, fun _ _ => true, fun _ _ => true⟩

/-- `prog`. -/
def nameProg : CStr := ⟨ascii "prog".toList, by decide⟩

/-- A regular file that only its group may execute. -/
def groupOnly : World := ⟨fun _ => ⟨1000, 1000, 0o100010⟩, []⟩

/-- **Its owner may not execute it** afterwards, although the program reports success. -/
theorem main_group_only :
    (main oneFile nameProg [nameProg] groupOnly).1 = EXIT_SUCCESS ∧
    ((main oneFile nameProg [nameProg] groupOnly).2.inode 0).stMode = 0o100454 ∧
    ¬ARX (groupOnly.inode 0) ((main oneFile nameProg [nameProg] groupOnly).2.inode 0) := by
  refine ⟨rfl, by decide, ?_⟩
  intro h
  have howner := (h.execute .owner).mpr (Or.inr ⟨.group, by decide⟩)
  exact absurd howner (by decide)

/-- `dir`, `file` and `prog` of the exercise. -/
example : [0o040400, 0o100400, 0o100500].map (fun mode => (changed ⟨0, 0, mode⟩).stMode) =
    [0o040555, 0o100444, 0o100555] := by decide

end LinuxInterface.Chmod
