/-
  ch15/4_euidaccess.c: `effective_access`, a check of permissions by the effective IDs.

  1. **The program** — a block each for reading, writing and executing, which differ in the bits
     they look at (`passes`).  What they look at is one class of bits (`effectiveAccess_eq_zero`).

  2. **The check of the system** — user 0 is not held up, and a supplementary group counts as the
     effective one (`Process.allows`).

  3. **Where they agree** — user 0 gets the same answer if the bits of its class have what it asks
     for, or if the system refuses to execute the file; any other user does unless the file belongs
     to a group that is only a supplementary one, and then if the bits of the group and of the others
     give the same answer (`effectiveAccess_agrees_iff`).
-/
import Mathlib.Data.Nat.Bitwise

namespace LinuxInterface.EuidAccess

/-! ## The program -/

/-- `struct stat`, as far as it is used. -/
structure Stat where
  stUid : Nat
  stGid : Nat
  stMode : Nat

/-- The effective IDs of a process and its supplementary groups. -/
structure Process where
  euid : Nat
  egid : Nat
  groups : List Nat

def R_OK : Nat := 4
def W_OK : Nat := 2
def X_OK : Nat := 1

def S_IRUSR : Nat := 0o400
def S_IWUSR : Nat := 0o200
def S_IXUSR : Nat := 0o100
def S_IRGRP : Nat := 0o040
def S_IWGRP : Nat := 0o020
def S_IXGRP : Nat := 0o010
def S_IROTH : Nat := 0o004
def S_IWOTH : Nat := 0o002
def S_IXOTH : Nat := 0o001

def S_IFMT : Nat := 0o170000
def S_IFDIR : Nat := 0o040000

section

variable (p : Process) (st : Stat)

/-- A block of the function: whether it is left without `return -1`. -/
def passes (mode ok usr grp oth : Nat) : Bool :=
  if mode &&& ok ≠ 0 then
    if st.stUid = p.euid then st.stMode &&& usr ≠ 0
    else if st.stGid = p.egid then st.stMode &&& grp ≠ 0
    else st.stMode &&& oth ≠ 0
  else true

/-- `effective_access(path, mode)`, for what `stat` says about the path. -/
def effectiveAccess (stat : Option Stat) (mode : Nat) : Int :=
  match stat with
  | none => -1
  | some st =>
    if !passes p st mode R_OK S_IRUSR S_IRGRP S_IROTH then -1
    else if !passes p st mode W_OK S_IWUSR S_IWGRP S_IWOTH then -1
    else if !passes p st mode X_OK S_IXUSR S_IXGRP S_IXOTH then -1
    else 0

/-! ## The check of the system -/

/-- The permissions, … -/
inductive Perm where
  | execute
  | write
  | read

/-- … each of which is a bit of `mode` … -/
def Perm.bit : Perm → Nat
  | .execute => 0
  | .write => 1
  | .read => 2

/-- … and a bit in every class of `st_mode`. -/
inductive Class where
  | other
  | group
  | owner

def Class.shift : Class → Nat
  | .other => 0
  | .group => 3
  | .owner => 6

def Stat.has (c : Class) (q : Perm) : Bool := st.stMode.testBit (c.shift + q.bit)

def Stat.isDir : Bool := st.stMode &&& S_IFMT = S_IFDIR

/-- The class of bits that counts for a process. -/
def Process.class : Class :=
  if st.stUid = p.euid then .owner
  else if st.stGid = p.egid ∨ st.stGid ∈ p.groups then .group
  else .other

/-- Whether the system grants a permission. -/
def Process.granted (q : Perm) : Bool :=
  if p.euid = 0 then
    match q with
    | .execute => st.isDir || st.has .owner q || st.has .group q || st.has .other q
    | _ => true
  else st.has (p.class st) q

/-- Whether the system grants all the permissions of a mode. -/
def Process.allows (mode : Nat) : Prop := ∀ q : Perm, mode.testBit q.bit → p.granted st q

/-- Whether a class of bits has all the permissions of a mode. -/
def Stat.hasAll (c : Class) (mode : Nat) : Prop := ∀ q : Perm, mode.testBit q.bit → st.has c q

/-- Whether nobody, not even user 0, may execute the file. -/
def Stat.noExecute : Prop := st.isDir = false ∧ ∀ c : Class, st.has c .execute = false

/-! ## Where they agree -/

/-- The class of bits that the program looks at. -/
def consulted : Class :=
  if st.stUid = p.euid then .owner
  else if st.stGid = p.egid then .group
  else .other

variable {p st}
variable {mode : Nat}

theorem and_two_pow_ne_zero (n i : Nat) : n &&& 2 ^ i ≠ 0 ↔ n.testBit i = true := by
  rw [Nat.and_two_pow]
  cases n.testBit i with
  | true => simp
  | false => simp

/-- A block is about one bit of the mode and the bit of the class that is consulted. -/
theorem passes_iff (mode : Nat) (q : Perm) :
    passes p st mode (2 ^ q.bit) (2 ^ (6 + q.bit)) (2 ^ (3 + q.bit)) (2 ^ (0 + q.bit)) = true ↔
      (mode.testBit q.bit = true → st.has (consulted p st) q = true) := by
  unfold passes consulted
  by_cases hmode : mode &&& 2 ^ q.bit ≠ 0
  · have hbit := (and_two_pow_ne_zero _ _).mp hmode
    rw [if_pos hmode]
    have hhas : ∀ c : Class,
        decide (st.stMode &&& 2 ^ (c.shift + q.bit) ≠ 0) = true ↔ st.has c q = true := by
      intro c
      rw [decide_eq_true_iff, and_two_pow_ne_zero]
      rfl
    by_cases huid : st.stUid = p.euid
    · rw [if_pos huid, if_pos huid]
      exact (hhas .owner).trans ⟨fun h _ => h, fun h => h hbit⟩
    · rw [if_neg huid, if_neg huid]
      by_cases hgid : st.stGid = p.egid
      · rw [if_pos hgid, if_pos hgid]
        exact (hhas .group).trans ⟨fun h _ => h, fun h => h hbit⟩
      · rw [if_neg hgid, if_neg hgid]
        exact (hhas .other).trans ⟨fun h _ => h, fun h => h hbit⟩
  · rw [if_neg hmode]
    have hbit := mt (and_two_pow_ne_zero _ _).mpr hmode
    exact ⟨fun _ h => absurd h hbit, fun _ => rfl⟩

/-- The blocks one behind the other. -/
theorem blocks_eq_zero : ∀ r w x : Bool,
    (if !r then (-1 : Int) else if !w then -1 else if !x then -1 else 0) = 0 ↔
      r = true ∧ w = true ∧ x = true := by
  decide

/-- **What the program checks**: the permissions of the mode in one class of bits. -/
theorem effectiveAccess_eq_zero (mode : Nat) :
    effectiveAccess p (some st) mode = 0 ↔ st.hasAll (consulted p st) mode := by
  have hr := @passes_iff p st mode .read
  have hw := @passes_iff p st mode .write
  have hx := @passes_iff p st mode .execute
  refine (blocks_eq_zero _ _ _).trans ((and_congr hr (and_congr hw hx)).trans ?_)
  constructor
  · rintro ⟨hr, hw, hx⟩ q
    cases q with
    | read => exact hr
    | write => exact hw
    | execute => exact hx
  · intro h
    exact ⟨h .read, h .write, h .execute⟩

/-- What the system grants user 0. -/
theorem allows_root (hroot : p.euid = 0) :
    p.allows st mode ↔ ¬ (mode.testBit Perm.execute.bit = true ∧ st.noExecute) := by
  have hexec : p.granted st .execute = true ↔ ¬ st.noExecute := by
    unfold Process.granted Stat.noExecute
    rw [if_pos hroot]
    constructor
    · rintro hany ⟨hdir, hnone⟩
      simp [hdir, hnone] at hany
    · intro hnot
      by_contra hany
      simp only [Bool.or_eq_true, not_or, Bool.not_eq_true] at hany
      obtain ⟨⟨⟨hdir, howner⟩, hgroup⟩, hother⟩ := hany
      refine hnot ⟨hdir, fun c => ?_⟩
      cases c with
      | other => exact hother
      | group => exact hgroup
      | owner => exact howner
  constructor
  · rintro hall ⟨hbit, hnone⟩
    exact hexec.mp (hall .execute hbit) hnone
  · intro hnot q hq
    cases q with
    | read => exact if_pos hroot
    | write => exact if_pos hroot
    | execute => exact hexec.mpr fun hnone => hnot ⟨hq, hnone⟩

/-- What it grants any other user. -/
theorem allows_user (hroot : p.euid ≠ 0) : p.allows st mode ↔ st.hasAll (p.class st) mode := by
  have hgranted : ∀ q, p.granted st q = st.has (p.class st) q := fun q => if_neg hroot
  simp only [Process.allows, Stat.hasAll, hgranted]

/-- The program looks at the right bits, unless the group of the file is only a supplementary one. -/
theorem class_eq_consulted (h : st.stUid = p.euid ∨ st.stGid = p.egid ∨ st.stGid ∉ p.groups) :
    p.class st = consulted p st := by
  unfold Process.class consulted
  by_cases huid : st.stUid = p.euid
  · rw [if_pos huid, if_pos huid]
  · rw [if_neg huid, if_neg huid]
    have hgroup : (st.stGid = p.egid ∨ st.stGid ∈ p.groups) ↔ st.stGid = p.egid := by
      rcases h with h | h | h
      · exact absurd h huid
      · exact ⟨fun _ => h, Or.inl⟩
      · exact or_iff_left h
    simp only [hgroup]

/-- **Where they agree**, for every process, file and mode.  User 0 gets the same answer if and only
    if the bits that the program looks at have all that is asked for, or nobody may execute the
    file and that is asked for.  For another user the only difference is in a group that is only a
    supplementary one, where the program looks at the bits of the others and the system at those of
    the group. -/
theorem effectiveAccess_agrees_iff (p : Process) (st : Stat) (mode : Nat) :
    (effectiveAccess p (some st) mode = 0 ↔ p.allows st mode) ↔
      if p.euid = 0 then
        st.hasAll (consulted p st) mode ∨
          (mode.testBit Perm.execute.bit = true ∧ st.noExecute)
      else
        (st.stUid = p.euid ∨ st.stGid = p.egid ∨ st.stGid ∉ p.groups) ∨
          (st.hasAll .other mode ↔ st.hasAll .group mode) := by
  rw [effectiveAccess_eq_zero]
  by_cases hroot : p.euid = 0
  · rw [if_pos hroot, allows_root hroot]
    -- what the bits of a class allow user 0 gets in any case
    have hsub : st.hasAll (consulted p st) mode →
        ¬ (mode.testBit Perm.execute.bit = true ∧ st.noExecute) := by
      rintro hall ⟨hbit, -, hnone⟩
      have hexec := hall .execute hbit
      rw [hnone] at hexec
      nomatch hexec
    constructor
    · intro hiff
      by_cases hall : st.hasAll (consulted p st) mode
      · exact Or.inl hall
      · exact Or.inr (not_not.mp (mt hiff.mpr hall))
    · rintro (hall | hnone)
      · exact ⟨hsub, fun _ => hall⟩
      · exact ⟨hsub, fun hnot => absurd hnone hnot⟩
  · rw [if_neg hroot, allows_user hroot]
    by_cases hids : st.stUid = p.euid ∨ st.stGid = p.egid ∨ st.stGid ∉ p.groups
    · rw [class_eq_consulted hids]
      exact ⟨fun _ => Or.inl hids, fun _ => Iff.rfl⟩
    · have hother : (st.hasAll .other mode ↔ st.hasAll .group mode) ↔
          (st.stUid = p.euid ∨ st.stGid = p.egid ∨ st.stGid ∉ p.groups) ∨
            (st.hasAll .other mode ↔ st.hasAll .group mode) :=
        ⟨Or.inr, fun h => h.resolve_left hids⟩
      rw [not_or, not_or, not_not] at hids
      obtain ⟨huid, hgid, hmem⟩ := hids
      have hclass : p.class st = .group := (if_neg huid).trans (if_pos (Or.inr hmem))
      have hconsulted : consulted p st = .other := (if_neg huid).trans (if_neg hgid)
      rw [hclass, hconsulted]
      exact hother

/-- A process that may read is granted `R_OK`. -/
theorem allows_read (h : p.granted st .read = true) : p.allows st R_OK := by
  intro q hq
  cases q with
  | read => exact h
  | write => nomatch hq
  | execute => nomatch hq

/-- **User 0** is denied a file without permissions, and **a supplementary group** does not help,
    whereas the system grants both. -/
theorem effectiveAccess_differs :
    effectiveAccess ⟨0, 0, []⟩ (some ⟨1000, 1000, 0o100000⟩) R_OK = -1 ∧
    Process.allows ⟨0, 0, []⟩ ⟨1000, 1000, 0o100000⟩ R_OK ∧
    effectiveAccess ⟨1000, 1000, [27]⟩ (some ⟨0, 27, 0o100640⟩) R_OK = -1 ∧
    Process.allows ⟨1000, 1000, [27]⟩ ⟨0, 27, 0o100640⟩ R_OK :=
  ⟨by decide, allows_read (by decide), by decide, allows_read (by decide)⟩

end

end LinuxInterface.EuidAccess
