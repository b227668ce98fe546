/-
  ch09/3_initgroups.c: `initgroups`, which makes a user's groups the supplementary groups of the
  process.

  1. **The program** — the list begins with `basegid`; every entry of the group database that has
     the user among its members adds one element, for which the list has to be reallocated
     (`addGroup`).

  2. **What the kernel is handed** — `basegid` and the groups of the user in the order of the
     database (`collect_eq`), and nothing is changed unless the call succeeds (`initgroups_spec`).
-/
import LinuxInterface.Base.CString
import LinuxInterface.Base.Scanf

namespace LinuxInterface.Initgroups

open LinuxInterface

/-! ## The program -/

/-- `struct passwd`, as far as it is used. -/
structure Passwd where
  pwName : CStr

/-- `struct group`, as far as it is used. -/
structure Group where
  grGid : Nat
  grMem : List CStr

/-- The databases, and what `malloc`, the `realloc` for an element behind `n` others and
    `setgroups` answer. -/
structure System where
  passwd : List Passwd
  group : List Group
  malloc : Bool
  realloc : Nat → Bool
  setgroups : List Nat → Bool

/-- What the call leaves: the list that was passed to `setgroups` if it was called, the supplementary
    groups of the process, and what was passed to `perror`. -/
structure Result where
  ret : Int
  passed : Option (List Nat)
  supplementary : List Nat
  perror : Option (List UInt8)
deriving DecidableEq

section

variable (sys : System) (user : CStr) (basegid : Nat)

/-- `getpwnam(user)`. -/
def System.getpwnam : Option Passwd := sys.passwd.find? fun pw => pw.pwName.bytes = user.bytes

/-- The loop over `gr_mem`: at the first member that is the user the group is added. -/
def addGroup (pw : Passwd) (gid : Nat) : List CStr → List Nat → Option (List Nat)
  | [], groups => some groups
  | member :: grMem, groups =>
    if strcmp member pw.pwName = 0 then
      if sys.realloc groups.length then some (groups ++ [gid]) else none
    else addGroup pw gid grMem groups

/-- The loop over the group database; `none` if `realloc` fails. -/
def collect (pw : Passwd) : Option (List Nat) :=
  sys.group.foldlM (fun groups gr => addGroup sys pw gr.grGid gr.grMem groups) [basegid]

/-- `initgroups(user, basegid)`, in a process with the supplementary groups `supplementary`. -/
def initgroups (supplementary : List Nat) : Result :=
  match sys.getpwnam user with
  | none => ⟨-1, none, supplementary, some (ascii "getpwnam".toList)⟩
  | some pw =>
    if sys.malloc then
      match collect sys basegid pw with
      | none => ⟨-1, none, supplementary, some (ascii "realloc".toList)⟩
      | some groups =>
        if sys.setgroups groups then ⟨0, some groups, groups, none⟩
        else ⟨-1, some groups, supplementary, some (ascii "setgroups".toList)⟩
    else ⟨-1, none, supplementary, some (ascii "malloc".toList)⟩

/-! ## What the kernel is handed -/

/-- Whether the user is a member. -/
def Group.hasMember (gr : Group) : Bool := gr.grMem.any fun member => member.bytes = user.bytes

/-- The groups that have the user as a member. -/
def System.groupsOf : List Nat := (sys.group.filter (Group.hasMember user)).map Group.grGid

/-- Nothing is in the way: the user is known, there is memory for every group, and the kernel takes
    the list. -/
structure System.Serves : Prop where
  known : (sys.getpwnam user).isSome
  malloc : sys.malloc
  realloc : ∀ k < (sys.groupsOf user).length, sys.realloc (1 + k)
  setgroups : sys.setgroups (basegid :: sys.groupsOf user)

variable {sys user basegid}

theorem getpwnam_name {pw : Passwd} (h : sys.getpwnam user = some pw) :
    pw.pwName.bytes = user.bytes := by
  have hp := List.find?_some (p := fun pw : Passwd => decide (pw.pwName.bytes = user.bytes)) h
  exact of_decide_eq_true hp

/-- A group is added once, however often the user is listed. -/
theorem addGroup_eq {pw : Passwd} (hpw : pw.pwName.bytes = user.bytes) (gr : Group)
    (groups : List Nat) :
    addGroup sys pw gr.grGid gr.grMem groups =
      if gr.hasMember user then
        if sys.realloc groups.length then some (groups ++ [gr.grGid]) else none
      else some groups := by
  unfold Group.hasMember
  induction gr.grMem with
  | nil => rfl
  | cons member grMem ih =>
    rw [addGroup, List.any_cons]
    have hcmp := strcmp_eq_zero member pw.pwName
    rw [hpw] at hcmp
    by_cases h : strcmp member pw.pwName = 0
    · rw [if_pos h, decide_eq_true (hcmp.mp h), Bool.true_or, if_pos rfl]
    · rw [if_neg h, ih, decide_eq_false (mt hcmp.mpr h), Bool.false_or]

/-- Elements are appended as long as there is memory. -/
theorem foldlM_realloc (gids : List Nat) (groups : List Nat) :
    gids.foldlM (fun groups gid => if sys.realloc groups.length then some (groups ++ [gid]) else none)
        groups =
      if ∀ k < gids.length, sys.realloc (groups.length + k) then some (groups ++ gids) else none := by
  induction gids generalizing groups with
  | nil => simp
  | cons gid gids ih =>
    rw [List.foldlM_cons]
    -- the first element, and then the others behind one more
    have hall : (∀ k < (gid :: gids).length, sys.realloc (groups.length + k) = true) ↔
        sys.realloc groups.length = true ∧
          ∀ k < gids.length, sys.realloc ((groups ++ [gid]).length + k) = true := by
      rw [List.length_cons, Nat.forall_lt_succ_left, List.length_append, List.length_singleton]
      simp only [Nat.add_zero, Nat.add_assoc, Nat.add_comm 1]
    by_cases h : sys.realloc groups.length = true
    · rw [if_pos h, Option.bind_eq_bind, Option.bind_some, ih, List.append_assoc]
      simp only [hall, h, true_and, List.singleton_append]
    · rw [if_neg h, if_neg fun hk => h (hall.mp hk).1]
      rfl

/-- Only the groups of the user play a part. -/
theorem foldlM_addGroup {pw : Passwd} (hpw : pw.pwName.bytes = user.bytes) (db : List Group)
    (groups : List Nat) :
    db.foldlM (fun groups gr => addGroup sys pw gr.grGid gr.grMem groups) groups =
      ((db.filter (Group.hasMember user)).map Group.grGid).foldlM
        (fun groups gid => if sys.realloc groups.length then some (groups ++ [gid]) else none)
        groups := by
  induction db generalizing groups with
  | nil => rfl
  | cons gr db ih =>
    rw [List.foldlM_cons, addGroup_eq hpw]
    by_cases hmem : gr.hasMember user = true
    · rw [if_pos hmem, List.filter_cons_of_pos hmem, List.map_cons, List.foldlM_cons]
      exact congrArg _ (funext ih)
    · rw [if_neg hmem, List.filter_cons_of_neg hmem]
      exact ih groups

/-- **The list** is the groups of the user behind `basegid`. -/
theorem collect_eq {pw : Passwd} (h : sys.getpwnam user = some pw) :
    collect sys basegid pw =
      if ∀ k < (sys.groupsOf user).length, sys.realloc (1 + k) then
        some (basegid :: sys.groupsOf user)
      else none := by
  rw [collect, foldlM_addGroup (getpwnam_name h)]
  exact foldlM_realloc (sys.groupsOf user) [basegid]

/-- The call either is served or changes nothing. -/
theorem initgroups_cases (sys : System) (user : CStr) (basegid : Nat) (supplementary : List Nat) :
    (sys.Serves user basegid ∧ initgroups sys user basegid supplementary =
      ⟨0, some (basegid :: sys.groupsOf user), basegid :: sys.groupsOf user, none⟩) ∨
    (¬sys.Serves user basegid ∧ ∃ passed perror,
      initgroups sys user basegid supplementary = ⟨-1, passed, supplementary, perror⟩) := by
  unfold initgroups
  cases hpw : sys.getpwnam user with
  | none =>
    refine Or.inr ⟨fun h => ?_, _, _, rfl⟩
    have hknown := h.known
    rw [hpw] at hknown
    nomatch hknown
  | some pw =>
    by_cases hmalloc : sys.malloc = true
    · simp only [if_pos hmalloc, collect_eq hpw]
      by_cases hrealloc : ∀ k < (sys.groupsOf user).length, sys.realloc (1 + k) = true
      · simp only [if_pos hrealloc]
        by_cases hset : sys.setgroups (basegid :: sys.groupsOf user) = true
        · refine Or.inl ⟨⟨?_, hmalloc, hrealloc, hset⟩, if_pos hset⟩
          rw [hpw]
          rfl
        · exact Or.inr ⟨fun h => hset h.setgroups, _, _, if_neg hset⟩
      · simp only [if_neg hrealloc]
        exact Or.inr ⟨fun h => hrealloc h.realloc, _, _, rfl⟩
    · simp only [if_neg hmalloc]
      exact Or.inr ⟨fun h => hmalloc h.malloc, _, _, rfl⟩

/-- **What the kernel is handed**, and that nothing else changes the groups of the process. -/
theorem initgroups_spec (sys : System) (user : CStr) (basegid : Nat) (supplementary : List Nat) :
    ((initgroups sys user basegid supplementary).ret = 0 ↔ sys.Serves user basegid) ∧
    ((initgroups sys user basegid supplementary).ret = 0 →
      (initgroups sys user basegid supplementary).passed = some (basegid :: sys.groupsOf user) ∧
      (initgroups sys user basegid supplementary).supplementary =
        basegid :: sys.groupsOf user) ∧
    ((initgroups sys user basegid supplementary).ret ≠ 0 →
      (initgroups sys user basegid supplementary).ret = -1 ∧
      (initgroups sys user basegid supplementary).supplementary = supplementary) := by
  rcases initgroups_cases sys user basegid supplementary with ⟨hs, h⟩ | ⟨hs, passed, perror, h⟩
  · rw [h]
    exact ⟨⟨fun _ => hs, fun _ => rfl⟩, fun _ => ⟨rfl, rfl⟩, fun hne => absurd rfl hne⟩
  · have hne : (-1 : Int) ≠ 0 := by decide
    rw [h]
    exact ⟨⟨fun h0 => absurd h0 hne, fun h1 => absurd h1 hs⟩, fun h0 => absurd h0 hne,
      fun _ => ⟨rfl, rfl⟩⟩

end

/-- The user `u`. -/
def userU : CStr := ⟨ascii ['u'], by decide⟩

/-- Another user. -/
def userV : CStr := ⟨ascii ['v'], by decide⟩

/-- `u` is twice a member of group 7, not of group 8, and a member of group 9. -/
def sysU (room : Nat → Bool) : System where
  passwd := [⟨userV⟩, ⟨userU⟩]
  group := [⟨7, [userU, userV, userU]⟩, ⟨8, [userV]⟩, ⟨9, [userV, userU]⟩]
  malloc := true
  realloc := room
  setgroups := fun groups => groups.length ≤ 65536

/-- With enough memory the groups are set; if it ends at the second one they are as before. -/
example :
    (initgroups (sysU fun _ => true) userU 100 [5]).supplementary = [100, 7, 9] ∧
    (initgroups (sysU fun n => n < 2) userU 100 [5]).supplementary = [5] := by
  decide +kernel

end LinuxInterface.Initgroups
