/-
  ch17/acl_entry.c and ch17/ugid_functions.c: `displayACLRights`, which prints the rights that an
  ACL gives to a user or a group.

  1. **Names** — `userIdFromName` and `groupIdFromName`, and the number that `displayACLRights` takes
     a name with a digit in front for.

  2. **The loop** — over the entries of the ACL for the one of the user or group and for the mask.
     It does not get past a mask that comes first (`loop_mask_first`), which no valid ACL has.

  3. **Names agree** — unless one begins with digits that are not all of it (`lookFor_agrees_iff`).

  4. **Rights** — the loop finds the entry and the mask of a valid ACL (`findEntry_acl`).  What is
     printed is the rights that both grant, but for the `w`, which is shown where the mask grants
     reading (`showRights_masked_iff`).
-/
import LinuxInterface.Base.CString
import LinuxInterface.Base.Loop
import LinuxInterface.Base.Scanf

namespace LinuxInterface.AclEntry

open LinuxInterface

/-! ## Names -/

/-- A number as a `uid_t` or `gid_t`. -/
def toId (v : Int) : Nat := (v % 4294967296).toNat

/-- `(uid_t) -1`. -/
def NO_ID : Nat := 4294967295

/-- An account or a group. -/
structure Account where
  name : CStr
  id : Nat

/-- The user and the group database. -/
structure Databases where
  passwd : List Account
  group : List Account

def findAccount (db : List Account) (name : CStr) : Option Nat :=
  (db.find? fun a => a.name.bytes = name.bytes).map Account.id

/-- `getpwnam(name)`, as far as it is used. -/
def Databases.getpwnam (db : Databases) (name : CStr) : Option Nat := findAccount db.passwd name

/-- `getgrnam(name)`. -/
def Databases.getgrnam (db : Databases) (name : CStr) : Option Nat := findAccount db.group name

/-- The body of the two functions that follow. -/
def idFromName (getnam : CStr → Option Nat) (name : CStr) : Nat :=
  if name.bytes = [] then NO_ID
  else if (strtol name.bytes).2 = [] then toId (strtol name.bytes).1
  else (getnam name).getD NO_ID

/-- `userIdFromName(name)`. -/
def userIdFromName (db : Databases) (name : CStr) : Nat := idFromName db.getpwnam name

/-- `groupIdFromName(name)`. -/
def groupIdFromName (db : Databases) (name : CStr) : Nat := idFromName db.getgrnam name

section

variable (db : Databases) (isUser : Bool) (name : CStr)

/-- The function for the kind that is asked for. -/
def nameToId : Nat := if isUser then userIdFromName db name else groupIdFromName db name

/-- An ID that is not `-1`. -/
def validId (id : Nat) : Option Nat := if id = NO_ID then none else some id

/-- The ID that `displayACLRights` looks for; `none` if it reports an invalid name. -/
def lookFor : Option Nat :=
  if isdigit (name.bytes.headD 0) then some (toId (atoi name.bytes))
  else validId (nameToId db isUser name)

end

/-! ## The loop -/

/-- `acl_permset_t`. -/
structure Perms where
  read : Bool
  write : Bool
  execute : Bool
deriving DecidableEq

/-- `acl_tag_t`, with the qualifier. -/
inductive Tag where
  | userObj
  | user (uid : Nat)
  | groupObj
  | group (gid : Nat)
  | mask
  | other
deriving DecidableEq

structure Entry where
  tag : Tag
  perms : Perms
deriving DecidableEq

/-- `entry_id`. -/
inductive EntryId where
  | ACL_FIRST_ENTRY
  | ACL_NEXT_ENTRY
deriving DecidableEq

/-- The variables of the loop, and the place of the next entry in the ACL.  `permset` is there iff
    `name_found`, `maskPermset` iff `mask_found`. -/
structure State where
  entryId : EntryId
  cursor : Nat
  permset : Option Perms
  maskPermset : Option Perms
deriving DecidableEq

section

variable (entries : List Entry) (isUser : Bool) (id : Nat)

/-- `acl_get_entry(acl, entry_id, &entry)`: the entry, and the place behind it. -/
def getEntry (s : State) : Option (Entry × Nat) :=
  let i := match s.entryId with
    | .ACL_FIRST_ENTRY => 0
    | .ACL_NEXT_ENTRY => s.cursor
  entries[i]?.map fun e => (e, i + 1)

/-- The tag and the qualifier that are looked for. -/
def wanted : Tag := if isUser then .user id else .group id

/-- A round of the loop. -/
def round (s : State) : Turn State State :=
  match getEntry entries s with
  | none => .leave s
  | some (e, cursor) =>
    if e.tag = .mask then
      -- `continue`, with `entry_id` as it is
      .again { s with cursor := cursor, maskPermset := some e.perms }
    else
      let permset := if e.tag = wanted isUser id then some e.perms else s.permset
      if permset.isSome && s.maskPermset.isSome then
        .leave { s with cursor := cursor, permset := permset }
      else .again ⟨.ACL_NEXT_ENTRY, cursor, permset, s.maskPermset⟩

/-- The loop, for at most as many rounds as there are entries and one more. -/
def findEntry : Option State :=
  loopN (round entries isUser id) (entries.length + 1) ⟨.ACL_FIRST_ENTRY, 0, none, none⟩

end

section

variable (isUser : Bool) (name : CStr)

/-- That there is no such entry. -/
def noEntryText : List UInt8 :=
  if isUser then
    ascii "User ".toList ++ name.bytes ++ ascii " doesn't have ACL_USER entry on this file\n".toList
  else
    ascii "Group ".toList ++ name.bytes ++
      ascii " doesn't have ACL_GROUP entry on this file\n".toList

/-- A letter for a right, or `-`. -/
def letter (c : Char) (granted : Bool) : UInt8 := (if granted then c else '-').toNat.toUInt8

/-- The rights. -/
def rightsText (r w x : Bool) : List UInt8 :=
  (if isUser then ascii "User ".toList else ascii "Group ".toList) ++ name.bytes ++
    ascii " has permissions: ".toList ++ [letter 'r' r, letter 'w' w, letter 'x' x, 10]

/-- `acl_get_perm(permset, …)` as a condition: for `NULL` it is -1. -/
def getPerm (q : Perms → Bool) (permset : Option Perms) : Bool := permset.all q

/-- What is printed behind the loop. -/
def printed (s : State) : List UInt8 :=
  match s.permset with
  | none => noEntryText isUser name
  | some p =>
    rightsText isUser name
      (p.read && getPerm Perms.read s.maskPermset)
      (p.write && getPerm Perms.read s.maskPermset)
      (p.execute && getPerm Perms.execute s.maskPermset)

/-- The loop and what is printed behind it. -/
def showRights (entries : List Entry) (id : Nat) : Option (List UInt8) :=
  (findEntry entries isUser id).map (printed isUser name)

/-- What the program writes; `perror` adds the text of `errno`. -/
inductive Output where
  | stdout (text : List UInt8)
  | stderr (text : List UInt8)
  | perror (text : List UInt8)

/-- `displayACLRights(path, isUser, name)`, for what `acl_get_file` returns; `none` if the loop does
    not end. -/
def displayACLRights (db : Databases) (acl : Option (List Entry)) : Option Output :=
  match acl with
  | none => some (.perror (ascii "Error fetching ACL".toList))
  | some entries =>
    match lookFor db isUser name with
    | none =>
      some (.stderr ((if isUser then ascii "Invalid user: ".toList
        else ascii "Invalid group: ".toList) ++ name.bytes ++ [10]))
    | some id => (showRights isUser name entries id).map .stdout

end

/-! ## Names agree -/

section

variable {getnam : CStr → Option Nat} {name : CStr}

/-- The digits in front of a name. -/
def number (name : CStr) : List UInt8 := name.bytes.takeWhile isdigit

/-- What is behind them. -/
def behind (name : CStr) : List UInt8 := name.bytes.dropWhile isdigit

theorem number_append_behind (name : CStr) : number name ++ behind name = name.bytes :=
  List.takeWhile_append_dropWhile

theorem isdigit_of_mem_number {c : UInt8} (h : c ∈ number name) : isdigit c = true :=
  List.mem_takeWhile_imp h

theorem not_isdigit_head_behind : ∀ c ∈ (behind name).head?, isdigit c = false := by
  intro c hc
  have hnot := List.head?_dropWhile_not isdigit name.bytes
  rw [show (name.bytes.dropWhile isdigit).head? = some c from hc] at hnot
  simpa using hnot

theorem number_ne_nil (h : isdigit (name.bytes.headD 0) = true) : number name ≠ [] := by
  rw [number]
  cases hb : name.bytes with
  | nil =>
    rw [hb] at h
    nomatch h
  | cons c s =>
    rw [hb] at h
    have hc : isdigit c = true := h
    rw [List.takeWhile_cons_of_pos hc]
    exact List.cons_ne_nil _ _

theorem toId_natCast {n : Nat} (h : n < 2 ^ 32) : toId n = n := by
  unfold toId
  omega

/-- A name with a digit in front, as `displayACLRights` reads it, … -/
theorem toId_atoi (h : isdigit (name.bytes.headD 0) = true)
    (hfit : value (number name) < 2 ^ 31) : toId (atoi name.bytes) = value (number name) := by
  have hatoi := atoi_digits (s := behind name) (fun c => isdigit_of_mem_number) (number_ne_nil h)
    not_isdigit_head_behind hfit
  rw [number_append_behind] at hatoi
  rw [hatoi, toId_natCast (by omega)]

/-- … and as `userIdFromName` reads it. -/
theorem idFromName_digit (h : isdigit (name.bytes.headD 0) = true)
    (hfit : value (number name) < 2 ^ 31) :
    idFromName getnam name =
      if behind name = [] then value (number name) else (getnam name).getD NO_ID := by
  have hstrtol := strtol_digits (s := behind name) (fun c => isdigit_of_mem_number)
    (number_ne_nil h) not_isdigit_head_behind (by omega)
  rw [number_append_behind] at hstrtol
  have hne : name.bytes ≠ [] := by
    intro hnil
    rw [hnil] at h
    nomatch h
  rw [idFromName, if_neg hne, hstrtol, toId_natCast (by omega)]

/-- What the database says about an account with another reading. -/
theorem validId_getD_iff {x : Option Nat} {n : Nat} (hn : n ≠ NO_ID) :
    some n = validId (x.getD NO_ID) ↔ x = some n := by
  cases x with
  | none => simp [validId]
  | some m =>
    show some n = (if m = NO_ID then none else some m) ↔ some m = some n
    by_cases hm : m = NO_ID
    · rw [if_pos hm, hm]
      simp [hn.symm]
    · rw [if_neg hm]
      exact eq_comm

/-- The database of the kind that is asked for. -/
def Databases.accountOf (db : Databases) (isUser : Bool) (name : CStr) : Option Nat :=
  if isUser then db.getpwnam name else db.getgrnam name

theorem nameToId_eq (db : Databases) (isUser : Bool) (name : CStr) :
    nameToId db isUser name = idFromName (db.accountOf isUser) name := by
  cases isUser with
  | true => rfl
  | false => rfl

end

/-- **Names agree** unless one begins with a number but is not one, and is not the name of what has
    this number. -/
theorem lookFor_agrees_iff (db : Databases) (isUser : Bool) (name : CStr)
    (hfit : value (number name) < 2 ^ 31) :
    lookFor db isUser name = validId (nameToId db isUser name) ↔
      (isdigit (name.bytes.headD 0) = true →
        behind name = [] ∨ db.accountOf isUser name = some (value (number name))) := by
  by_cases hdigit : isdigit (name.bytes.headD 0) = true
  · have hn : value (number name) ≠ NO_ID := by
      unfold NO_ID
      omega
    have hlook : lookFor db isUser name = some (value (number name)) := by
      rw [lookFor, if_pos hdigit, toId_atoi hdigit hfit]
    rw [hlook, nameToId_eq, idFromName_digit hdigit hfit]
    simp only [hdigit, forall_const]
    by_cases hbehind : behind name = []
    · rw [if_pos hbehind]
      exact ⟨fun _ => Or.inl hbehind, fun _ => (if_neg hn).symm⟩
    · rw [if_neg hbehind, validId_getD_iff hn]
      exact ⟨Or.inr, fun h => h.resolve_left hbehind⟩
  · rw [lookFor, if_neg hdigit]
    exact ⟨fun _ h => absurd h hdigit, fun _ => rfl⟩

/-- `12ab`, the name of user 5. -/
def name12ab : CStr := ⟨ascii "12ab".toList, by decide⟩

def dbAb : Databases := ⟨[⟨name12ab, 5⟩], []⟩

def name12 : CStr := ⟨ascii "12".toList, by decide⟩

/-- A number is one for both, and so is `12ab` where it is the name of user 12. -/
theorem lookFor_agrees_12 :
    lookFor dbAb true name12 = validId (nameToId dbAb true name12) ∧
      lookFor ⟨[⟨name12ab, 12⟩], []⟩ true name12ab =
        validId (nameToId ⟨[⟨name12ab, 12⟩], []⟩ true name12ab) := by
  refine ⟨(lookFor_agrees_iff dbAb true name12 (by decide)).mpr fun _ => Or.inl (by decide), ?_⟩
  exact (lookFor_agrees_iff ⟨[⟨name12ab, 12⟩], []⟩ true name12ab (by decide)).mpr
    fun _ => Or.inr (by decide +kernel)

/-- **`12ab`** is user 5, but the rights of user 12 are shown; as a group it does not exist, but is not
    reported. -/
theorem lookFor_differs :
    lookFor dbAb true name12ab = some 12 ∧ userIdFromName dbAb name12ab = 5 ∧
    lookFor dbAb false name12ab = some 12 ∧ groupIdFromName dbAb name12ab = NO_ID := by
  decide +kernel

/-! ## Rights -/

/-- A valid ACL. -/
structure Acl where
  owner : Perms
  users : List (Nat × Perms)
  owningGroup : Perms
  groups : List (Nat × Perms)
  mask : Option Perms
  other : Perms
  users_nodup : (users.map Prod.fst).Nodup
  groups_nodup : (groups.map Prod.fst).Nodup
  mask_isSome : users ≠ [] ∨ groups ≠ [] → mask.isSome

namespace Acl

variable (acl : Acl) (isUser : Bool) (id : Nat) (name : CStr)

/-- The owner and the named users. -/
def userEntries : List Entry :=
  ⟨.userObj, acl.owner⟩ :: acl.users.map fun a => ⟨.user a.1, a.2⟩

/-- The owning group and the named groups. -/
def groupEntries : List Entry :=
  ⟨.groupObj, acl.owningGroup⟩ :: acl.groups.map fun a => ⟨.group a.1, a.2⟩

/-- The entries in front of the mask. -/
def front : List Entry := acl.userEntries ++ acl.groupEntries

/-- The mask and what is behind it. -/
def back : List Entry := acl.mask.toList.map (fun p => ⟨.mask, p⟩) ++ [⟨.other, acl.other⟩]

/-- The entries in the order in which the kernel keeps them. -/
def entries : List Entry := acl.front ++ acl.back

/-- The entry for a user or a group. -/
def named : Option Perms := (if isUser then acl.users else acl.groups).lookup id

/-- The rights that the entry and the mask grant. -/
def masked : Option Perms :=
  (acl.named isUser id).bind fun p => acl.mask.map fun m =>
    ⟨p.read && m.read, p.write && m.write, p.execute && m.execute⟩

/-- The text for these rights. -/
def maskedText : List UInt8 :=
  match acl.masked isUser id with
  | none => noEntryText isUser name
  | some q => rightsText isUser name q.read q.write q.execute

end Acl

section

variable {entries l : List Entry} {isUser : Bool} {id c : Nat} {ps m : Option Perms} {e : Entry}

theorem getEntry_next (h : entries.drop c = e :: l) :
    getEntry entries ⟨.ACL_NEXT_ENTRY, c, ps, m⟩ = some (e, c + 1) := by
  show entries[c]?.map _ = _
  rw [← List.head?_drop, h]
  rfl

theorem getEntry_end (h : entries.drop c = []) :
    getEntry entries ⟨.ACL_NEXT_ENTRY, c, ps, m⟩ = none := by
  show entries[c]?.map _ = _
  rw [← List.head?_drop, h]
  rfl

/-- The last of the entries with a tag. -/
def lastMatch (t : Tag) (l : List Entry) (ps : Option Perms) : Option Perms :=
  l.foldl (fun ps e => if e.tag = t then some e.perms else ps) ps

/-- An entry in front of the mask. -/
theorem round_front (h : entries.drop c = e :: l) (he : e.tag ≠ .mask) :
    round entries isUser id ⟨.ACL_NEXT_ENTRY, c, ps, none⟩ =
      .again ⟨.ACL_NEXT_ENTRY, c + 1, lastMatch (wanted isUser id) [e] ps, none⟩ := by
  simp [round, getEntry_next h, he, lastMatch]

/-- **The entries in front of the mask.** -/
theorem loop_front (hmask : ∀ e ∈ l, e.tag ≠ .mask) (rest : List Entry)
    (h : entries.drop c = l ++ rest) (n : Nat) :
    loopN (round entries isUser id) (l.length + n) ⟨.ACL_NEXT_ENTRY, c, ps, none⟩ =
      loopN (round entries isUser id) n
        ⟨.ACL_NEXT_ENTRY, c + l.length, lastMatch (wanted isUser id) l ps, none⟩ := by
  induction l generalizing c ps with
  | nil =>
    rw [List.length_nil, Nat.zero_add]
    rfl
  | cons e l ih =>
    obtain ⟨he, hl⟩ := List.forall_mem_cons.mp hmask
    have hdrop : entries.drop (c + 1) = l ++ rest := by
      rw [← List.drop_drop, h]
      rfl
    rw [List.length_cons, Nat.add_right_comm, loopN_again (round_front h he), ih hl hdrop]
    rw [Nat.add_assoc c 1, Nat.add_comm 1]
    rfl

theorem lastMatch_append (t : Tag) (l₁ l₂ : List Entry) (ps : Option Perms) :
    lastMatch t (l₁ ++ l₂) ps = lastMatch t l₂ (lastMatch t l₁ ps) := List.foldl_append

theorem lastMatch_of_ne {t : Tag} (h : ∀ e ∈ l, e.tag ≠ t) : lastMatch t l ps = ps := by
  induction l with
  | nil => rfl
  | cons e l ih =>
    obtain ⟨he, hl⟩ := List.forall_mem_cons.mp h
    show lastMatch t l (if e.tag = t then some e.perms else ps) = ps
    rw [if_neg he, ih hl]

/-- Among entries with different IDs, the last one with an ID is the one with it. -/
theorem lastMatch_map {f : Nat → Tag} (hf : ∀ a b, f a = f b → a = b) {as : List (Nat × Perms)}
    (hnodup : (as.map Prod.fst).Nodup) :
    lastMatch (f id) (as.map fun a => ⟨f a.1, a.2⟩) none = as.lookup id := by
  induction as with
  | nil => rfl
  | cons a as ih =>
    obtain ⟨hnot, hnodup⟩ := List.nodup_cons.mp hnodup
    rw [List.map_cons, List.lookup_cons]
    show lastMatch (f id) _ (if f a.1 = f id then some a.2 else none) = _
    by_cases ha : a.1 = id
    · rw [if_pos (congrArg f ha), beq_iff_eq.mpr ha.symm]
      refine lastMatch_of_ne fun e he heq => hnot ?_
      obtain ⟨b, hb, rfl⟩ := List.mem_map.mp he
      exact List.mem_map.mpr ⟨b, hb, (hf _ _ heq).trans ha.symm⟩
    · rw [if_neg fun h => ha (hf _ _ h), ih hnodup, beq_eq_false_iff_ne.mpr fun h => ha h.symm]

end

section

variable {acl : Acl} {isUser : Bool} {id : Nat} {ps : Option Perms}

/-- The tags of an entry and of those of a list. -/
theorem tag_of_mem {t : Tag} {f : Nat → Tag} {p : Perms} {as : List (Nat × Perms)} {e : Entry}
    (h : e ∈ (⟨t, p⟩ : Entry) :: as.map fun a => ⟨f a.1, a.2⟩) : e.tag = t ∨ ∃ id, e.tag = f id := by
  rcases List.mem_cons.mp h with rfl | h
  · exact Or.inl rfl
  · obtain ⟨a, -, rfl⟩ := List.mem_map.mp h
    exact Or.inr ⟨a.1, rfl⟩

theorem tag_of_mem_userEntries {e : Entry} (h : e ∈ acl.userEntries) :
    e.tag = .userObj ∨ ∃ uid, e.tag = .user uid := tag_of_mem h

theorem tag_of_mem_groupEntries {e : Entry} (h : e ∈ acl.groupEntries) :
    e.tag = .groupObj ∨ ∃ gid, e.tag = .group gid := tag_of_mem h

theorem front_no_mask : ∀ e ∈ acl.front, e.tag ≠ .mask := by
  intro e he hmask
  rcases List.mem_append.mp he with he | he
  · rcases tag_of_mem_userEntries he with h | ⟨uid, h⟩
    · nomatch h.symm.trans hmask
    · nomatch h.symm.trans hmask
  · rcases tag_of_mem_groupEntries he with h | ⟨gid, h⟩
    · nomatch h.symm.trans hmask
    · nomatch h.symm.trans hmask

/-- The entry of the user or group is the only one with this tag. -/
theorem lastMatch_front : lastMatch (wanted isUser id) acl.front none = acl.named isUser id := by
  rw [Acl.front, lastMatch_append]
  cases isUser with
  | true =>
    have husers : lastMatch (.user id) acl.userEntries none = acl.users.lookup id :=
      lastMatch_map (fun a b h => Tag.user.inj h) acl.users_nodup
    rw [show wanted true id = .user id from rfl, husers]
    refine lastMatch_of_ne fun e he htag => ?_
    rcases tag_of_mem_groupEntries he with h | ⟨gid, h⟩
    · nomatch h.symm.trans htag
    · nomatch h.symm.trans htag
  | false =>
    have husers : lastMatch (.group id) acl.userEntries none = none := by
      refine lastMatch_of_ne fun e he htag => ?_
      rcases tag_of_mem_userEntries he with h | ⟨uid, h⟩
      · nomatch h.symm.trans htag
      · nomatch h.symm.trans htag
    rw [show wanted false id = .group id from rfl, husers]
    exact lastMatch_map (fun a b h => Tag.group.inj h) acl.groups_nodup

/-- The mask and the last entry. -/
theorem loop_back {entries : List Entry} {c : Nat} (h : entries.drop c = acl.back) :
    loopN (round entries isUser id) (acl.back.length + 1) ⟨.ACL_NEXT_ENTRY, c, ps, none⟩ =
      some ⟨.ACL_NEXT_ENTRY, c + acl.back.length, ps, acl.mask⟩ := by
  have hother : (Tag.other = wanted isUser id) = False := by
    cases isUser with
    | true => simp [wanted]
    | false => simp [wanted]
  unfold Acl.back at h ⊢
  cases hm : acl.mask with
  | none =>
    rw [hm] at h
    have h1 : entries.drop (c + 1) = [] := by
      rw [← List.drop_drop, h]
      rfl
    have hr : round entries isUser id ⟨.ACL_NEXT_ENTRY, c, ps, none⟩ =
        .again ⟨.ACL_NEXT_ENTRY, c + 1, ps, none⟩ := by
      simp [round, getEntry_next h, hother]
    have hend : round entries isUser id ⟨.ACL_NEXT_ENTRY, c + 1, ps, none⟩ =
        .leave ⟨.ACL_NEXT_ENTRY, c + 1, ps, none⟩ := by
      simp [round, getEntry_end h1]
    exact (loopN_again hr 1).trans (loopN_leave hend 0)
  | some m =>
    rw [hm] at h
    have h1 : entries.drop (c + 1) = [⟨.other, acl.other⟩] := by
      rw [← List.drop_drop, h]
      rfl
    have h2 : entries.drop (c + 2) = [] := by
      rw [← List.drop_drop, h]
      rfl
    have hr : round entries isUser id ⟨.ACL_NEXT_ENTRY, c, ps, none⟩ =
        .again ⟨.ACL_NEXT_ENTRY, c + 1, ps, some m⟩ := by
      simp [round, getEntry_next h]
    refine (loopN_again hr 2).trans ?_
    cases ps with
    | none =>
      have hr1 : round entries isUser id ⟨.ACL_NEXT_ENTRY, c + 1, none, some m⟩ =
          .again ⟨.ACL_NEXT_ENTRY, c + 2, none, some m⟩ := by
        simp [round, getEntry_next h1, hother]
      have hend : round entries isUser id ⟨.ACL_NEXT_ENTRY, c + 2, none, some m⟩ =
          .leave ⟨.ACL_NEXT_ENTRY, c + 2, none, some m⟩ := by
        simp [round, getEntry_end h2]
      exact (loopN_again hr1 1).trans (loopN_leave hend 0)
    | some p =>
      have hr1 : round entries isUser id ⟨.ACL_NEXT_ENTRY, c + 1, some p, some m⟩ =
          .leave ⟨.ACL_NEXT_ENTRY, c + 2, some p, some m⟩ := by
        simp [round, getEntry_next h1, hother]
      exact loopN_leave hr1 1

/-- **The loop ends** and has found the entry, if there is one, and the mask. -/
theorem findEntry_acl (acl : Acl) (isUser : Bool) (id : Nat) :
    findEntry acl.entries isUser id =
      some ⟨.ACL_NEXT_ENTRY, acl.entries.length, acl.named isUser id, acl.mask⟩ := by
  -- the first round goes on behind the entry of the owner as every other round does
  have hfirst : round acl.entries isUser id ⟨.ACL_FIRST_ENTRY, 0, none, none⟩ =
      round acl.entries isUser id ⟨.ACL_NEXT_ENTRY, 0, none, none⟩ := by
    cases isUser with
    | true => rfl
    | false => rfl
  have hloop : findEntry acl.entries isUser id =
      loopN (round acl.entries isUser id) (acl.front.length + (acl.back.length + 1))
        ⟨.ACL_NEXT_ENTRY, 0, none, none⟩ := by
    rw [findEntry, Acl.entries, List.length_append, Nat.add_assoc, ← Nat.add_assoc, loopN, loopN,
      ← Acl.entries, hfirst]
  have hdrop : acl.entries.drop (0 + acl.front.length) = acl.back := by
    rw [Nat.zero_add]
    exact List.drop_left
  rw [hloop, loop_front front_no_mask acl.back rfl, loop_back hdrop, lastMatch_front, Acl.entries,
    List.length_append, Nat.zero_add]

/-- Where there is a named entry there is a mask. -/
theorem mask_isSome_of_named {p : Perms} (h : acl.named isUser id = some p) : acl.mask.isSome := by
  apply acl.mask_isSome
  have hne : (if isUser then acl.users else acl.groups) ≠ [] := by
    intro hnil
    rw [Acl.named, hnil] at h
    nomatch h
  cases isUser with
  | true => exact Or.inl hne
  | false => exact Or.inr hne

/-- The letters of two texts are compared one by one. -/
theorem rightsText_inj {name : CStr} {r w w' x : Bool} :
    rightsText isUser name r w x = rightsText isUser name r w' x ↔ w = w' := by
  rw [rightsText, rightsText, List.append_cancel_left_eq]
  cases w with
  | true =>
    cases w' with
    | true => simp
    | false => simp [letter]
  | false =>
    cases w' with
    | true => simp [letter]
    | false => simp

/-- **The rights shown** are those that the entry and the mask grant, if and only if the entry does not
    grant writing or the mask reading as writing. -/
theorem showRights_masked_iff (acl : Acl) (isUser : Bool) (id : Nat) (name : CStr) :
    ∃ text, showRights isUser name acl.entries id = some text ∧
      (∀ db, lookFor db isUser name = some id →
        displayACLRights isUser name db (some acl.entries) = some (.stdout text)) ∧
      (text = acl.maskedText isUser id name ↔
        ∀ p m, acl.named isUser id = some p → acl.mask = some m → p.write = true →
          m.read = m.write) := by
  have hshow := congrArg (Option.map (printed isUser name)) (findEntry_acl acl isUser id)
  refine ⟨_, hshow, fun db hdb => ?_, ?_⟩
  · rw [displayACLRights, hdb]
    exact congrArg (Option.map Output.stdout) hshow
  · rw [Acl.maskedText, Acl.masked]
    cases hp : acl.named isUser id with
    | none => exact ⟨fun _ p m h => (nomatch h), fun _ => rfl⟩
    | some p =>
      obtain ⟨m, hm⟩ := Option.isSome_iff_exists.mp (mask_isSome_of_named hp)
      rw [hm]
      refine rightsText_inj.trans ?_
      show (p.write && m.read) = (p.write && m.write) ↔ _
      constructor
      · rintro h p' m' ⟨⟩ ⟨⟩ hw
        rwa [hw, Bool.true_and, Bool.true_and] at h
      · intro h
        cases hw : p.write with
        | false => rfl
        | true => exact congrArg _ (h p m rfl rfl hw)

end

/-- User 5 may read and write, as far as the mask goes, which is reading. -/
def acl5 : Acl where
  owner := ⟨true, true, true⟩
  users := [(5, ⟨true, true, false⟩)]
  owningGroup := ⟨true, false, false⟩
  groups := []
  mask := some ⟨true, false, false⟩
  other := ⟨false, false, false⟩
  users_nodup := by decide
  groups_nodup := by decide
  mask_isSome := fun _ => rfl

def name5 : CStr := ⟨ascii ['5'], by decide⟩

/-- **A `w` is shown** that the mask does not grant. -/
theorem showRights_unmasked :
    showRights true name5 acl5.entries 5 = some (rightsText true name5 true true false) ∧
    acl5.maskedText true 5 name5 = rightsText true name5 true false false := by
  decide +kernel

/-- A mask in front of all other entries is read again and again. -/
theorem loop_mask_first (p : Perms) (rest : List Entry) (isUser : Bool) (id n : Nat) :
    ∀ (c : Nat) (ps m : Option Perms),
      loopN (round (⟨.mask, p⟩ :: rest) isUser id) n ⟨.ACL_FIRST_ENTRY, c, ps, m⟩ = none := by
  induction n with
  | zero =>
    intro c ps m
    rfl
  | succ n ih =>
    intro c ps m
    have hround : round (⟨.mask, p⟩ :: rest) isUser id ⟨.ACL_FIRST_ENTRY, c, ps, m⟩ =
        .again ⟨.ACL_FIRST_ENTRY, 1, ps, some p⟩ := rfl
    rw [loopN_again hround]
    exact ih 1 ps (some p)

end LinuxInterface.AclEntry
