/-
  ch15/7_chattr.c: `chattr`, which changes the flags of files.

  1. **The program** — `get_flags_from_mode` turns the letters of the mode into a word of flags; the
     loop of `main` then changes the files one by one and goes on where one fails.

  2. **The letters** — a word of letters whose cases end with `break` stands for the set of their
     flags (`parse_ok`); at any other letter the program exits (`parse_error`).

  3. **The files** — a file is changed if one of the arguments that stand for it can be opened, read
     and written, however many there are (`changeFiles_flags`).

  4. **Modes** — of the modes that are an operator with letters behind it, those with a `u` have no
     effect (`chattr_effect_iff`): its case has no `break`.  Of all other modes, the operators alone
     are not rejected (`chattr_rejects_iff`): the status that `get_flags_from_mode` returns for them
     is taken for flags.
-/
import LinuxInterface.Base.CString
import LinuxInterface.Base.Loop
import LinuxInterface.Base.Scanf
import LinuxInterface.Base.Stdio
import LinuxInterface.Base.WordSet

namespace LinuxInterface.Chattr

open LinuxInterface

/-! ## The program -/

def FS_SECRM_FL : BitVec 64 := 0x00000001
def FS_UNRM_FL : BitVec 64 := 0x00000002
def FS_COMPR_FL : BitVec 64 := 0x00000004
def FS_SYNC_FL : BitVec 64 := 0x00000008
def FS_IMMUTABLE_FL : BitVec 64 := 0x00000010
def FS_APPEND_FL : BitVec 64 := 0x00000020
def FS_NODUMP_FL : BitVec 64 := 0x00000040
def FS_NOATIME_FL : BitVec 64 := 0x00000080
def FS_JOURNAL_DATA_FL : BitVec 64 := 0x00004000
def FS_NOTAIL_FL : BitVec 64 := 0x00008000
def FS_DIRSYNC_FL : BitVec 64 := 0x00010000
def FS_TOPDIR_FL : BitVec 64 := 0x00020000

/-- A character constant. -/
def chr (c : Char) : UInt8 := c.toNat.toUInt8

/-- An argument that names a file: the file it stands for, and whether `open` and the two `ioctl`s
    succeed. -/
structure FileArg where
  name : CStr
  ino : Nat
  opens : Bool
  getflags : Bool
  setflags : Bool

/-- The flags of the files, and what has been written. -/
structure World where
  flags : Nat → BitVec 64
  log : List Msg

def World.print (w : World) (m : Msg) : World := { w with log := w.log ++ [m] }

def World.setFlags (w : World) (ino : Nat) (flags : BitVec 64) : World :=
  { w with flags := Function.update w.flags ino flags }

/-- `print_usage(progname)`. -/
def printUsage (progname : CStr) (w : World) : World :=
  ((((w.print (.stderr (ascii "Usage: ".toList ++ progname.bytes ++
    ascii " +/-= [i | a | d] files\n".toList))).print
    (.stderr (ascii "Options:\n".toList))).print
    (.stderr (ascii "  +: Add flags\n".toList))).print
    (.stderr (ascii "  -: Remove flags\n".toList))).print
    (.stderr (ascii "  =: Set flags (remove all others and set specified)\n".toList))

/-- What `modify_flags` makes of the flags of a file. -/
def newFlags (flags : BitVec 64) (set remove : Bool) (current : BitVec 64) : BitVec 64 :=
  if remove then current &&& flags
  else if set then flags
  else current ||| flags

/-- `modify_flags(filename, flags, set, remove)`. -/
def modifyFlags (f : FileArg) (flags : BitVec 64) (set remove : Bool) (w : World) : Int × World :=
  if !f.opens then (-1, w.print (.perror (ascii "Error opening file".toList)))
  else if !f.getflags then (-1, w.print (.perror (ascii "Error getting file flags".toList)))
  else if !f.setflags then (-1, w.print (.perror (ascii "Error setting file flags".toList)))
  else (0, w.setFlags f.ino (newFlags flags set remove (w.flags f.ino)))

/-- The cases of the `switch`: the letter, its flag, and whether there is a `break`. -/
def switchCases : List (UInt8 × BitVec 64 × Bool) :=
  [(chr 'i', FS_IMMUTABLE_FL, true),
   (chr 'a', FS_APPEND_FL, true),
   (chr 'c', FS_COMPR_FL, true),
   (chr 'D', FS_DIRSYNC_FL, true),
   (chr 'j', FS_JOURNAL_DATA_FL, true),
   (chr 'A', FS_NOATIME_FL, true),
   (chr 'd', FS_NODUMP_FL, true),
   (chr 't', FS_NOTAIL_FL, true),
   (chr 's', FS_SECRM_FL, true),
   (chr 'S', FS_SYNC_FL, true),
   (chr 'T', FS_TOPDIR_FL, true),
   (chr 'u', FS_UNRM_FL, false)]

/-- The `switch`; an error is the letter at which the program exits. -/
def addFlag (flags : BitVec 64) (p : UInt8) : Except UInt8 (BitVec 64) :=
  match switchCases.lookup p with
  | some (flag, true) => .ok (flags ||| flag)
  -- the case goes on into `default`
  | some (_, false) => .error p
  | none => .error p

/-- `get_flags_from_mode(mode)`; `none` if the program exits in it. -/
def getFlagsFromMode (mode : CStr) (w : World) : Option (BitVec 64) × World :=
  if mode.strlen ≤ 1 then
    (some (BitVec.ofNat 64 EXIT_FAILURE), w.print (.perror (ascii "error mode".toList)))
  else
    match mode.bytes.tail.foldlM addFlag 0 with
    | .ok flags => (some flags, w)
    | .error p => (none, w.print (.stderr (ascii "Unknown flag: ".toList ++ [p, 10])))

/-- A round of the loop in `main`. -/
def changeFile (flags : BitVec 64) (set remove : Bool) (w : World) (f : FileArg) : World :=
  match modifyFlags f flags set remove w with
  | (-1, w) => w.print (.stderr (ascii "failed to modify flags for '".toList ++ f.name.bytes ++
      ascii "'\n".toList))
  | (_, w) => w.print (.stdout (ascii "Updated flags for '".toList ++ f.name.bytes ++
      ascii "'\n".toList))

/-- The loop in `main`. -/
def changeFiles (flags : BitVec 64) (set remove : Bool) (files : List FileArg) (w : World) : World :=
  files.foldl (changeFile flags set remove) w

/-- `main` with the arguments `mode` and `files`: the status, and what has become of the world. -/
def main (progname mode : CStr) (files : List FileArg) (w : World) : Nat × World :=
  -- `argc < 3`
  if files.isEmpty then (EXIT_FAILURE, printUsage progname w)
  else
    match getFlagsFromMode mode w with
    | (none, w) => (EXIT_FAILURE, w)
    | (some flags, w) =>
      let c := mode.bytes.headD 0
      if c = chr '+' then (EXIT_SUCCESS, changeFiles flags false false files w)
      else if c = chr '-' then (EXIT_SUCCESS, changeFiles (~~~flags) false true files w)
      else if c = chr '=' then (EXIT_SUCCESS, changeFiles flags true false files w)
      else (EXIT_FAILURE, printUsage progname w)

/-! ## The letters -/

/-- The flag a letter stands for. -/
def flagOf (p : UInt8) : Option (BitVec 64) := (switchCases.lookup p).map Prod.fst

/-- The set of the flags that letters stand for, as bits. -/
def flagSet (letters : List UInt8) : Set Nat :=
  {b | ∃ p ∈ letters, ∃ flag, flagOf p = some flag ∧ b ∈ bits flag}

/-- A letter whose case ends with `break`. -/
def Breaks (p : UInt8) : Prop := ∃ flag, switchCases.lookup p = some (flag, true)

theorem flagSet_nil : flagSet [] = ∅ := by
  ext b
  simp [flagSet]

theorem flagSet_cons {p : UInt8} {flag : BitVec 64} (h : flagOf p = some flag)
    (letters : List UInt8) : flagSet (p :: letters) = bits flag ∪ flagSet letters := by
  ext b
  simp [flagSet, h]

/-- Letters are added up. -/
theorem parse_ok {letters : List UInt8} (h : ∀ p ∈ letters, Breaks p) (flags : BitVec 64) :
    ∃ word, letters.foldlM addFlag flags = .ok word ∧ bits word = bits flags ∪ flagSet letters := by
  induction letters generalizing flags with
  | nil => exact ⟨flags, rfl, by rw [flagSet_nil, Set.union_empty]⟩
  | cons p letters ih =>
    obtain ⟨⟨flag, hp⟩, hrest⟩ := List.forall_mem_cons.mp h
    obtain ⟨word, hword, hbits⟩ := ih hrest (flags ||| flag)
    have hflag : flagOf p = some flag := by rw [flagOf, hp, Option.map_some]
    refine ⟨word, ?_, ?_⟩
    · rw [List.foldlM_cons, addFlag, hp]
      exact hword
    · rw [hbits, bits_or, flagSet_cons hflag, Set.union_assoc]

theorem addFlag_error {p : UInt8} (h : ¬Breaks p) (flags : BitVec 64) :
    addFlag flags p = .error p := by
  unfold addFlag
  split
  · rename_i flag hp
    exact absurd ⟨flag, hp⟩ h
  · rfl
  · rfl

/-- At the first letter without a `break` the program exits. -/
theorem parse_error {letters : List UInt8} (h : ∃ p ∈ letters, ¬Breaks p) (flags : BitVec 64) :
    ∃ p, letters.foldlM addFlag flags = .error p := by
  induction letters generalizing flags with
  | nil =>
    obtain ⟨p, hp, -⟩ := h
    nomatch hp
  | cons p letters ih =>
    rw [List.foldlM_cons]
    by_cases hp : Breaks p
    · obtain ⟨flag, hlookup⟩ := hp
      obtain ⟨q, hq, hbad⟩ := h
      rcases List.mem_cons.mp hq with rfl | hq
      · exact absurd ⟨flag, hlookup⟩ hbad
      · rw [addFlag, hlookup]
        exact ih ⟨q, hq, hbad⟩ (flags ||| flag)
    · rw [addFlag_error hp]
      exact ⟨p, rfl⟩

/-! ## The files -/

/-- The file can be opened and its flags read and written. -/
def FileArg.accessible (f : FileArg) : Bool := f.opens && f.getflags && f.setflags

section

variable {flags : BitVec 64} {set remove : Bool}

theorem changeFile_flags (w : World) (f : FileArg) :
    (changeFile flags set remove w f).flags =
      if f.accessible then touch (newFlags flags set remove) w.flags f.ino else w.flags := by
  unfold changeFile modifyFlags FileArg.accessible
  cases f.opens with
  | false => rfl
  | true =>
    cases f.getflags with
    | false => rfl
    | true =>
      cases f.setflags with
      | false => rfl
      | true => rfl

/-- The loop goes through the files that are accessible. -/
theorem changeFiles_eq (files : List FileArg) (w : World) :
    (changeFiles flags set remove files w).flags =
      ((files.filter FileArg.accessible).map FileArg.ino).foldl
        (touch (newFlags flags set remove)) w.flags := by
  induction files generalizing w with
  | nil => rfl
  | cons f files ih =>
    show (changeFiles flags set remove files (changeFile flags set remove w f)).flags = _
    rw [ih, changeFile_flags]
    by_cases hacc : f.accessible = true
    · rw [if_pos hacc, List.filter_cons_of_pos hacc]
      rfl
    · rw [if_neg hacc, List.filter_cons_of_neg hacc]

/-- **The files** of which one argument is accessible are changed, the others are not. -/
theorem changeFiles_flags (hidem : ∀ x, newFlags flags set remove (newFlags flags set remove x) =
    newFlags flags set remove x) (files : List FileArg) (w : World) (ino : Nat) :
    (changeFiles flags set remove files w).flags ino =
      if ∃ f ∈ files, f.ino = ino ∧ f.accessible = true then newFlags flags set remove (w.flags ino)
      else w.flags ino := by
  have hmem : ino ∈ (files.filter FileArg.accessible).map FileArg.ino ↔
      ∃ f ∈ files, f.ino = ino ∧ f.accessible = true := by
    rw [List.mem_map]
    constructor
    · rintro ⟨f, hf, hino⟩
      obtain ⟨hf, hacc⟩ := List.mem_filter.mp hf
      exact ⟨f, hf, hino, hacc⟩
    · rintro ⟨f, hf, hino, hacc⟩
      exact ⟨f, List.mem_filter.mpr ⟨hf, hacc⟩, hino⟩
  rw [changeFiles_eq, foldl_touch hidem]
  simp only [hmem]

end

/-! ## Modes -/

/-- The operators. -/
inductive Op where
  | add
  | remove
  | set

def Op.char : Op → UInt8
  | .add => chr '+'
  | .remove => chr '-'
  | .set => chr '='

theorem op_char_ne_zero (op : Op) : op.char ≠ 0 := by
  cases op with
  | add => decide
  | remove => decide
  | set => decide

/-- What an operator does to the flags `F` of a file. -/
def Op.apply (op : Op) (F S : Set Nat) : Set Nat :=
  match op with
  | .add => F ∪ S
  | .remove => F \ S
  | .set => S

theorem known_ne_zero {p : UInt8} (h : (flagOf p).isSome) : p ≠ 0 := by
  rintro rfl
  revert h
  decide

/-- An operator with letters behind it. -/
structure Mode where
  op : Op
  letters : List UInt8
  ne_nil : letters ≠ []
  known : ∀ p ∈ letters, (flagOf p).isSome

/-- The mode as it is written. -/
def Mode.str (m : Mode) : CStr where
  bytes := m.op.char :: m.letters
  noNul := by
    intro h
    rcases List.mem_cons.mp h with h | h
    · exact op_char_ne_zero m.op h.symm
    · exact known_ne_zero (m.known 0 h) rfl

/-- What the program does to a file for an operator and a word of flags. -/
def opFlags (op : Op) (flags : BitVec 64) : BitVec 64 → BitVec 64 :=
  match op with
  | .add => newFlags flags false false
  | .remove => newFlags (~~~flags) false true
  | .set => newFlags flags true false

theorem bits_opFlags (op : Op) (flags current : BitVec 64) :
    bits (opFlags op flags current) = op.apply (bits current) (bits flags) := by
  cases op with
  | add => exact bits_or current flags
  | remove => exact bits_and_not current flags
  | set => rfl

section

variable {progname mode : CStr} {files : List FileArg} {w w' : World}

theorem getFlags_ok (hlen : 1 < mode.strlen) (h : ∀ p ∈ mode.bytes.tail, Breaks p) (w : World) :
    ∃ flags, getFlagsFromMode mode w = (some flags, w) ∧ bits flags = flagSet mode.bytes.tail := by
  obtain ⟨word, hword, hbits⟩ := parse_ok h 0
  rw [bits_zero, Set.empty_union] at hbits
  refine ⟨word, ?_, hbits⟩
  rw [getFlagsFromMode, if_neg (Nat.not_le.mpr hlen), hword]

theorem getFlags_exit (hlen : 1 < mode.strlen) (h : ∃ p ∈ mode.bytes.tail, ¬Breaks p) (w : World) :
    ∃ w', getFlagsFromMode mode w = (none, w') ∧ w'.flags = w.flags := by
  obtain ⟨p, hp⟩ := parse_error h 0
  refine ⟨w.print (.stderr (ascii "Unknown flag: ".toList ++ [p, 10])), ?_, rfl⟩
  rw [getFlagsFromMode, if_neg (Nat.not_le.mpr hlen), hp]

theorem getFlags_short (hlen : mode.strlen ≤ 1) (w : World) :
    ∃ w', getFlagsFromMode mode w = (some (BitVec.ofNat 64 EXIT_FAILURE), w') ∧
      w'.flags = w.flags := by
  refine ⟨w.print (.perror (ascii "error mode".toList)), ?_, rfl⟩
  rw [getFlagsFromMode, if_pos hlen]

theorem not_isEmpty (h : files ≠ []) : ¬files.isEmpty = true := by simpa using h

theorem main_exit (hfiles : files ≠ []) (hflags : getFlagsFromMode mode w = (none, w')) :
    main progname mode files w = (EXIT_FAILURE, w') := by
  rw [main, if_neg (not_isEmpty hfiles), hflags]

theorem main_usage {flags : BitVec 64} (hfiles : files ≠ [])
    (hflags : getFlagsFromMode mode w = (some flags, w'))
    (hop : ∀ op : Op, mode.bytes.headD 0 ≠ op.char) :
    main progname mode files w = (EXIT_FAILURE, printUsage progname w') := by
  have hadd : mode.bytes.headD 0 ≠ chr '+' := hop .add
  have hremove : mode.bytes.headD 0 ≠ chr '-' := hop .remove
  have hset : mode.bytes.headD 0 ≠ chr '=' := hop .set
  rw [main, if_neg (not_isEmpty hfiles), hflags]
  simp only [if_neg hadd, if_neg hremove, if_neg hset]

/-- The program with an operator in front and flags that it got. -/
theorem main_op {op : Op} {flags : BitVec 64} (hfiles : files ≠ [])
    (hflags : getFlagsFromMode mode w = (some flags, w')) (hw : w'.flags = w.flags)
    (hop : mode.bytes.headD 0 = op.char) :
    (main progname mode files w).1 = EXIT_SUCCESS ∧ ∀ ino,
      (main progname mode files w).2.flags ino =
        if ∃ f ∈ files, f.ino = ino ∧ f.accessible = true then opFlags op flags (w.flags ino)
        else w.flags ino := by
  rw [main, if_neg (not_isEmpty hfiles), hflags, ← hw]
  simp only [hop]
  cases op with
  | add =>
    refine ⟨rfl, changeFiles_flags (fun x => ?_) files w'⟩
    show (x ||| flags) ||| flags = x ||| flags
    rw [BitVec.or_assoc, BitVec.or_self]
  | remove =>
    refine ⟨rfl, changeFiles_flags (fun x => ?_) files w'⟩
    show (x &&& ~~~flags) &&& ~~~flags = x &&& ~~~flags
    rw [BitVec.and_assoc, BitVec.and_self]
  | set => exact ⟨rfl, changeFiles_flags (fun _ => rfl) files w'⟩

/-- Only the case of `u` has no `break`. -/
theorem breaks_iff {p : UInt8} : Breaks p ↔ (flagOf p).isSome ∧ p ≠ chr 'u' := by
  constructor
  · rintro ⟨flag, hp⟩
    refine ⟨by rw [flagOf, hp]; rfl, ?_⟩
    rintro rfl
    have hu : switchCases.lookup (chr 'u') = some (FS_UNRM_FL, false) := rfl
    nomatch hu.symm.trans hp
  · rintro ⟨hknown, hu⟩
    rw [flagOf, Option.isSome_map] at hknown
    obtain ⟨⟨flag, brk⟩, hp⟩ := Option.isSome_iff_exists.mp hknown
    obtain ⟨l₁, l₂, hl, -⟩ := List.lookup_eq_some_iff.mp hp
    have hmem : (p, flag, brk) ∈ switchCases := hl ▸ List.mem_append_right l₁ List.mem_cons_self
    have hcases : ∀ e ∈ switchCases, e.2.2 = true ∨ e.1 = chr 'u' := by
      simp [switchCases]
    obtain rfl := (hcases _ hmem).resolve_right hu
    exact ⟨flag, hp⟩

end

/-- Some flags of a file are changed by every mode with `u`. -/
theorem exists_changed (op : Op) {S : Set Nat} (hS : 1 ∈ S) :
    ∃ F : BitVec 64, op.apply (bits F) S ≠ bits F := by
  cases op with
  | add =>
    refine ⟨0, fun h => ?_⟩
    have h1 : 1 ∈ bits (0 : BitVec 64) := h ▸ Set.mem_union_right _ hS
    rw [bits_zero] at h1
    exact h1
  | remove =>
    refine ⟨FS_UNRM_FL, fun h => ?_⟩
    have h1 : 1 ∈ bits FS_UNRM_FL \ S := by
      rw [show bits FS_UNRM_FL \ S = bits FS_UNRM_FL from h]
      exact mem_bits.mpr (by decide)
    exact h1.2 hS
  | set =>
    refine ⟨0, fun h => ?_⟩
    have h1 : 1 ∈ bits (0 : BitVec 64) := h ▸ hS
    rw [bits_zero] at h1
    exact h1

/-- **The accepted modes** are the set operations on the flags of the files if and only if there is no
    `u` in them, unless no file is accessible anyway. -/
theorem chattr_effect_iff (progname : CStr) (m : Mode) (files : List FileArg) :
    (∀ (w : World) (ino : Nat), bits ((main progname m.str files w).2.flags ino) =
      if ∃ f ∈ files, f.ino = ino ∧ f.accessible = true then
        m.op.apply (bits (w.flags ino)) (flagSet m.letters)
      else bits (w.flags ino)) ↔
    chr 'u' ∉ m.letters ∨ ∀ f ∈ files, f.accessible = false := by
  have hlen : 1 < m.str.strlen := Nat.succ_lt_succ (List.length_pos_iff.mpr m.ne_nil)
  by_cases hfiles : files = []
  · subst hfiles
    constructor
    · intro _
      exact Or.inr (List.forall_mem_nil _)
    · intro _ w ino
      rw [if_neg fun h => nomatch h]
      rfl
  by_cases hu : chr 'u' ∈ m.letters
  · -- the program exits
    have hexit : ∀ w : World, (main progname m.str files w).2.flags = w.flags := by
      intro w
      obtain ⟨w', hflags, hw⟩ := getFlags_exit hlen ⟨chr 'u', hu, fun h => (breaks_iff.mp h).2 rfl⟩ w
      rw [main_exit hfiles hflags]
      exact hw
    simp only [hexit]
    constructor
    · intro h
      refine Or.inr fun f hf => Bool.eq_false_iff.mpr fun hacc => ?_
      obtain ⟨F, hF⟩ := exists_changed m.op (S := flagSet m.letters)
        ⟨chr 'u', hu, FS_UNRM_FL, rfl, mem_bits.mpr (by decide)⟩
      have hsame := h ⟨fun _ => F, []⟩ f.ino
      rw [if_pos ⟨f, hf, rfl, hacc⟩] at hsame
      exact hF hsame.symm
    · rintro (h | h) w ino
      · exact absurd hu h
      · rw [if_neg]
        rintro ⟨f, hf, -, hacc⟩
        rw [h f hf] at hacc
        nomatch hacc
  · refine ⟨fun _ => Or.inl hu, fun _ w ino => ?_⟩
    have hbreaks : ∀ p ∈ m.letters, Breaks p := fun p hp =>
      breaks_iff.mpr ⟨m.known p hp, fun h => hu (h ▸ hp)⟩
    obtain ⟨flags, hflags, hbits⟩ := getFlags_ok hlen hbreaks w
    have hop : m.str.bytes.headD 0 = m.op.char := rfl
    rw [(main_op hfiles hflags rfl hop).2 ino, apply_ite bits, bits_opFlags, hbits]
    rfl

/-- An operator alone is taken for the flag `EXIT_FAILURE`. -/
theorem main_alone {progname mode : CStr} {op : Op} (h : mode.bytes = [op.char])
    {files : List FileArg} (hfiles : files ≠ []) (w : World) :
    (main progname mode files w).1 = EXIT_SUCCESS := by
  have hlen : mode.strlen ≤ 1 := by
    rw [CStr.strlen, h]
    exact Nat.le_refl 1
  have hop : mode.bytes.headD 0 = op.char := by
    rw [h]
    rfl
  obtain ⟨w', hflags, hw⟩ := getFlags_short hlen w
  exact (main_op hfiles hflags hw hop).1

/-- A mode that has no operator in front, or an unknown letter behind it, is rejected. -/
theorem main_rejects {progname mode : CStr} (hbad : ¬∃ m : Mode, m.str.bytes = mode.bytes)
    (halone : ∀ op : Op, mode.bytes ≠ [op.char]) {files : List FileArg} (hfiles : files ≠ [])
    (w : World) :
    (main progname mode files w).1 = EXIT_FAILURE ∧
      (main progname mode files w).2.flags = w.flags := by
  have husage : ∀ {flags : BitVec 64} {w' : World}, getFlagsFromMode mode w = (some flags, w') →
      w'.flags = w.flags → (∀ op : Op, mode.bytes.headD 0 ≠ op.char) →
      (main progname mode files w).1 = EXIT_FAILURE ∧
        (main progname mode files w).2.flags = w.flags := by
    intro flags w' hflags hw hop
    rw [main_usage hfiles hflags hop]
    exact ⟨rfl, hw⟩
  by_cases hlen : mode.strlen ≤ 1
  · obtain ⟨w', hflags, hw⟩ := getFlags_short hlen w
    refine husage hflags hw fun op hop => ?_
    cases hmode : mode.bytes with
    | nil =>
      rw [hmode] at hop
      exact op_char_ne_zero op hop.symm
    | cons c letters =>
      rw [hmode] at hop
      rw [CStr.strlen, hmode] at hlen
      obtain rfl := List.length_eq_zero_iff.mp (Nat.le_zero.mp (Nat.le_of_succ_le_succ hlen))
      obtain rfl : c = op.char := hop
      exact halone op hmode
  · by_cases hbreaks : ∀ p ∈ mode.bytes.tail, Breaks p
    · obtain ⟨flags, hflags, -⟩ := getFlags_ok (Nat.not_le.mp hlen) hbreaks w
      refine husage hflags rfl fun op hop => hbad ?_
      -- an operator and letters that are known
      cases hmode : mode.bytes with
      | nil =>
        rw [hmode] at hop
        exact absurd hop.symm (op_char_ne_zero op)
      | cons c letters =>
        rw [hmode] at hop hbreaks
        rw [CStr.strlen, hmode] at hlen
        refine ⟨⟨op, letters, ?_, fun p hp => (breaks_iff.mp (hbreaks p hp)).1⟩, ?_⟩
        · rintro rfl
          exact hlen (Nat.le_refl 1)
        · exact congrArg (List.cons · letters) hop.symm
    · have hexit : ∃ p ∈ mode.bytes.tail, ¬Breaks p := by simpa using hbreaks
      obtain ⟨w', hflags, hw⟩ := getFlags_exit (Nat.not_le.mp hlen) hexit w
      rw [main_exit hfiles hflags]
      exact ⟨rfl, hw⟩

/-- An argument for which all calls succeed. -/
def fileF : FileArg := ⟨⟨ascii ['f'], by decide⟩, 7, true, true, true⟩

def chattr : CStr := ⟨ascii "chattr".toList, by decide⟩

/-- `+iu`. -/
def addIU : Mode where
  op := .add
  letters := ascii ['i', 'u']
  ne_nil := by decide
  known := List.forall_mem_cons.mpr ⟨rfl, List.forall_mem_singleton.mpr rfl⟩

/-- **`chattr +iu f`** exits and leaves the flags of `f` as they are, although both letters are known. -/
theorem chattr_u_exits :
    (main chattr addIU.str [fileF] ⟨fun _ => 0, []⟩).1 = EXIT_FAILURE ∧
    (main chattr addIU.str [fileF] ⟨fun _ => 0, []⟩).2.flags 7 = 0 ∧
    addIU.op.apply (bits (0 : BitVec 64)) (flagSet addIU.letters) ≠ bits (0 : BitVec 64) := by
  refine ⟨by decide +kernel, by decide +kernel, fun h => ?_⟩
  have h4 : 4 ∈ bits (0 : BitVec 64) := by
    rw [← h]
    exact Or.inr ⟨chr 'i', by decide, FS_IMMUTABLE_FL, rfl, mem_bits.mpr (by decide)⟩
  rw [bits_zero] at h4
  exact h4

/-- Whereas `chattr -i f f` removes the flag. -/
example : (main chattr ⟨ascii ['-', 'i'], by decide⟩ [fileF, fileF] ⟨fun _ => 0x30, []⟩).2.flags 7 =
    0x20 := by
  decide +kernel

/-- **All other modes** are rejected but for an operator alone. -/
theorem chattr_rejects_iff (progname mode : CStr) (hbad : ¬∃ m : Mode, m.str.bytes = mode.bytes)
    (files : List FileArg) (w : World) :
    ((main progname mode files w).1 = EXIT_FAILURE ∧
      (main progname mode files w).2.flags = w.flags) ↔
    files = [] ∨ ∀ op : Op, mode.bytes ≠ [op.char] := by
  constructor
  · rintro ⟨hstatus, -⟩
    by_cases hfiles : files = []
    · exact Or.inl hfiles
    · refine Or.inr fun op hop => ?_
      rw [main_alone hop hfiles] at hstatus
      nomatch hstatus
  · rintro (rfl | halone)
    · exact ⟨rfl, rfl⟩
    · by_cases hfiles : files = []
      · subst hfiles
        exact ⟨rfl, rfl⟩
      · exact main_rejects hbad halone hfiles w

/-- `+x`. -/
def addX : CStr := ⟨ascii ['+', 'x'], by decide⟩

theorem chattr_rejects_addX :
    ((main chattr addX [fileF] ⟨fun _ => 0, []⟩).1 = EXIT_FAILURE ∧
      (main chattr addX [fileF] ⟨fun _ => 0, []⟩).2.flags = fun _ => 0) ↔
    [fileF] = [] ∨ ∀ op : Op, addX.bytes ≠ [op.char] := by
  refine chattr_rejects_iff chattr addX ?_ [fileF] ⟨fun _ => 0, []⟩
  rintro ⟨m, hm⟩
  have hletters : m.letters = [chr 'x'] := (List.cons.inj hm).2
  have hknown := m.known (chr 'x') (hletters ▸ List.mem_singleton.mpr rfl)
  revert hknown
  decide

/-- **`chattr + f`** sets a flag and succeeds. -/
theorem chattr_alone_succeeds :
    (main chattr ⟨ascii ['+'], by decide⟩ [fileF] ⟨fun _ => 0, []⟩).1 = EXIT_SUCCESS ∧
    (main chattr ⟨ascii ['+'], by decide⟩ [fileF] ⟨fun _ => 0, []⟩).2.flags 7 = FS_SECRM_FL := by
  decide +kernel

end LinuxInterface.Chattr
