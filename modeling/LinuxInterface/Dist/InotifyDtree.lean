/-
  inotify/inotify_dtree.c (tlpi-dist): a program that keeps a list of the directories of some trees
  up to date, from what inotify reports.

  1. **The cache** — a growing array of watch descriptors with the paths of their directories, and
     the functions that search and change it.  What counts is its used slots (`used`), and each
     function has one lemma that says what it does to them.

  2. **The monitor** — one step goes from one system call to the next: `Pc` is where the program is
     and what it has still to do, `Answer` what the kernel, `nftw` or the user at the terminal answer.

  The options -a, -d and -x (checks and dumps of the cache) are not part of the model, nor are the
  commands that only check or print (`other`).
-/
import LinuxInterface.Base.Paths
import Mathlib.Data.List.Perm.Basic

namespace LinuxInterface.InotifyDtree

open LinuxInterface

def PATH_MAX : Nat := 4096

def NAME_MAX : Nat := 255

/-! ## The cache -/

/-- `struct watch`. -/
structure Watch where
  wd : Int
  path : CStr
deriving DecidableEq

/-- The array `wlCache`, `cacheSize` slots long. -/
abbrev Cache := List Watch

/-- An empty slot: its descriptor is -1. -/
def unused : Watch := ⟨-1, CStr.empty⟩

/-- The slot of a watch descriptor; `none` is -1. -/
def findWatch (C : Cache) (wd : Int) : Option Nat := C.findIdx? fun w => w.wd = wd

/-- `markCacheSlotEmpty`.  The slot stays in the array, to be used again. -/
def markCacheSlotEmpty (C : Cache) (slot : Nat) : Cache := C.set slot unused

def ALLOC_INCR : Nat := 200

/-- A free slot, and the cache, which has grown if there was none. -/
def findEmptyCacheSlot (C : Cache) : Nat × Cache :=
  match C.findIdx? fun w => w.wd = -1 with
  | some j => (j, C)
  | none => (C.length, C ++ List.replicate ALLOC_INCR unused)

/-- `inotify_add_watch` has accepted the path, so it fits into the slot. -/
def addWatchToCache (C : Cache) (wd : Int) (pathname : CStr) : Cache :=
  (findEmptyCacheSlot C).2.set (findEmptyCacheSlot C).1 ⟨wd, pathname⟩

/-- The first used slot with this path. -/
def pathnameToCacheSlot (C : Cache) (pathname : CStr) : Option Nat :=
  C.findIdx? fun w => 0 ≤ w.wd && strcmp w.path pathname = 0

def pathnameInCache (C : Cache) (pathname : CStr) : Bool := (pathnameToCacheSlot C pathname).isSome

/-- The test of `rewriteCachedPaths` and `zapSubtree`: the cached path begins with `path`, and there
    it ends or goes on with a slash. -/
def inSubtree (path cached : CStr) : Bool :=
  strncmp path cached path.strlen = 0 &&
    (cached.charAt path.strlen = some SLASH || cached.charAt path.strlen = some 0)

/-- A path that begins with `fullPath` begins with `newPrefix` from now on. -/
def rewritten (fullPath newPrefix : CStr) (w : Watch) : Watch :=
  if inSubtree fullPath w.path then
    { w with path := snprintf PATH_MAX (newPrefix.append (w.path.drop fullPath.strlen)) }
  else w

/-- `rewriteCachedPaths`, over all slots of the array. -/
def rewriteCachedPaths (C : Cache) (oldPathPrefix oldName newPathPrefix newName : CStr) : Cache :=
  C.map (rewritten (snprintf PATH_MAX (oldPathPrefix.slash oldName))
    (snprintf PATH_MAX (newPathPrefix.slash newName)))

/-- The next slot, from `j` on, that `zapSubtree` removes. -/
def nextToZap (C : Cache) (path : CStr) (j : Nat) : Option Nat :=
  ((C.drop j).findIdx? fun w => 0 ≤ w.wd && inSubtree path w.path).map (· + j)

/-- The used slots. -/
def used (C : Cache) : List Watch := C.filter fun w => 0 ≤ w.wd

/-- What the command `w` writes, line by line. -/
def directoryList (C : Cache) : List CStr := (used C).map Watch.path

section

variable {C : Cache} {w : Watch} {wd : Int} {path : CStr} {j : Nat}

/-- The used slots are those with a descriptor. -/
theorem mem_used : w ∈ used C ↔ w ∈ C ∧ 0 ≤ w.wd := by
  unfold used
  rw [List.mem_filter, decide_eq_true_eq]

theorem used_append (C D : Cache) : used (C ++ D) = used C ++ used D := List.filter_append ..

theorem used_replicate (n : Nat) : used (List.replicate n unused) = [] :=
  List.filter_eq_nil_iff.mpr fun w hw => by
    rw [List.eq_of_mem_replicate hw]
    decide

theorem used_cons_of_nonneg (h : 0 ≤ w.wd) : used (w :: C) = w :: used C :=
  List.filter_cons_of_pos (decide_eq_true h)

theorem used_cons_of_neg (h : ¬ 0 ≤ w.wd) : used (w :: C) = used C :=
  List.filter_cons_of_neg (by simpa using h)

/-- A cache around one of its slots. -/
theorem eq_around (h : C[j]? = some w) : C = C.take j ++ w :: C.drop (j + 1) := by
  obtain ⟨hj, rfl⟩ := List.getElem?_eq_some_iff.mp h
  rw [← List.drop_eq_getElem_cons hj, List.take_append_drop]

theorem set_around (h : C[j]? = some w) (w' : Watch) : C.set j w' = C.take j ++ w' :: C.drop (j + 1) := by
  obtain ⟨hj, -⟩ := List.getElem?_eq_some_iff.mp h
  rw [List.set_eq_take_append_cons_drop, if_pos hj]

/-- **What is found.** -/
theorem findWatch_eq_some (h : findWatch C wd = some j) : ∃ w, C[j]? = some w ∧ w.wd = wd := by
  obtain ⟨hj, hw, -⟩ := List.findIdx?_eq_some_iff_getElem.mp h
  exact ⟨_, List.getElem?_eq_getElem hj, of_decide_eq_true hw⟩

/-- No slot has the descriptor, not even an unused one. -/
theorem findWatch_eq_none : findWatch C wd = none ↔ ∀ w ∈ C, w.wd ≠ wd := by
  unfold findWatch
  rw [List.findIdx?_eq_none_iff]
  simp

/-- A path is in the cache if a used slot has it. -/
theorem pathnameInCache_iff : pathnameInCache C path = true ↔ ∃ w ∈ used C, w.path = path := by
  unfold pathnameInCache pathnameToCacheSlot
  rw [List.findIdx?_isSome, List.any_eq_true]
  constructor
  · rintro ⟨w, hw, h⟩
    obtain ⟨hwd, hpath⟩ := Bool.and_eq_true_iff.mp h
    refine ⟨w, mem_used.mpr ⟨hw, of_decide_eq_true hwd⟩, CStr.ext ?_⟩
    exact (strcmp_eq_zero _ _).mp (of_decide_eq_true hpath)
  · rintro ⟨w, hw, rfl⟩
    obtain ⟨hmem, hwd⟩ := mem_used.mp hw
    exact ⟨w, hmem, Bool.and_eq_true_iff.mpr
      ⟨decide_eq_true hwd, decide_eq_true ((strcmp_eq_zero _ _).mpr rfl)⟩⟩

/-- The test of two functions, `strncmp` and a look at the next byte, is that of paths. -/
theorem inSubtree_iff {s t : CStr} : inSubtree s t = true ↔ Within s t := by
  rw [← strncmp_within]
  simp [inSubtree]

/-- The next slot that `zapSubtree` comes to is used, and its path is in the subtree. -/
theorem nextToZap_eq_some {k : Nat} (h : nextToZap C path j = some k) :
    j ≤ k ∧ ∃ w, C[k]? = some w ∧ 0 ≤ w.wd ∧ Within path w.path := by
  obtain ⟨i, hi, rfl⟩ := Option.map_eq_some_iff.mp h
  obtain ⟨hlen, hw, -⟩ := List.findIdx?_eq_some_iff_getElem.mp hi
  obtain ⟨hwd, hsub⟩ := Bool.and_eq_true_iff.mp hw
  refine ⟨Nat.le_add_left j i, _, ?_, of_decide_eq_true hwd, inSubtree_iff.mp hsub⟩
  rw [Nat.add_comm, ← List.getElem?_drop]
  exact List.getElem?_eq_getElem hlen

/-- The slots that are passed over are not below the path. -/
theorem nextToZap_before {k : Nat} (h : nextToZap C path j = some k) :
    ∀ i w, j ≤ i → i < k → C[i]? = some w → 0 ≤ w.wd → ¬ Within path w.path := by
  obtain ⟨n, hn, rfl⟩ := Option.map_eq_some_iff.mp h
  obtain ⟨hlen, -, hbefore⟩ := List.findIdx?_eq_some_iff_getElem.mp hn
  intro i w hji hik hi hwd hsub
  have hlt : i - j < n := by omega
  have hget : (C.drop j)[i - j] = w := by
    have hsome : (C.drop j)[i - j]? = some w := by
      rw [List.getElem?_drop, Nat.add_sub_cancel' hji]
      exact hi
    exact List.getElem_of_getElem? hsome |>.2
  have hnot := hbefore (i - j) hlt
  rw [hget] at hnot
  exact hnot (Bool.and_eq_true_iff.mpr ⟨decide_eq_true hwd, inSubtree_iff.mpr hsub⟩)

/-- When it comes to none there is none left. -/
theorem nextToZap_eq_none (h : nextToZap C path j = none) :
    ∀ i w, j ≤ i → C[i]? = some w → 0 ≤ w.wd → ¬ Within path w.path := by
  intro i w hji hi hwd hsub
  have hnone := List.findIdx?_eq_none_iff.mp (Option.map_eq_none_iff.mp h)
  have hmem : w ∈ C.drop j := by
    refine List.mem_of_getElem? (i := i - j) ?_
    rw [List.getElem?_drop, Nat.add_sub_cancel' hji]
    exact hi
  have hnot := hnone w hmem
  rw [Bool.and_eq_false_iff, decide_eq_false_iff_not, ← Bool.not_eq_true, inSubtree_iff] at hnot
  exact hnot.elim (fun h => h hwd) fun h => h hsub

/-- **A slot is emptied.** -/
theorem used_markCacheSlotEmpty (h : C[j]? = some w) (hwd : 0 ≤ w.wd) :
    (used C).Perm (w :: used (markCacheSlotEmpty C j)) := by
  have hc : used C = used (C.take j) ++ w :: used (C.drop (j + 1)) := by
    rw [← used_cons_of_nonneg hwd, ← used_append, ← eq_around h]
  have hmark : used (markCacheSlotEmpty C j) = used (C.take j) ++ used (C.drop (j + 1)) := by
    rw [markCacheSlotEmpty, set_around h, used_append, used_cons_of_neg (by decide)]
  rw [hc, hmark]
  exact List.perm_middle

/-- The slot that is found is free, and the used slots are as before. -/
theorem findEmptyCacheSlot_spec (C : Cache) :
    (∃ w, (findEmptyCacheSlot C).2[(findEmptyCacheSlot C).1]? = some w ∧ w.wd = -1) ∧
      used (findEmptyCacheSlot C).2 = used C := by
  unfold findEmptyCacheSlot
  split
  · rename_i j h
    exact ⟨findWatch_eq_some h, rfl⟩
  · refine ⟨⟨unused, ?_, rfl⟩, ?_⟩
    · rw [List.getElem?_append_right (Nat.le_refl _), Nat.sub_self]
      rfl
    · rw [used_append, used_replicate, List.append_nil]

/-- **A slot is filled.** -/
theorem used_addWatchToCache (hwd : 0 ≤ wd) (path : CStr) :
    (used (addWatchToCache C wd path)).Perm (⟨wd, path⟩ :: used C) := by
  obtain ⟨⟨w, hw, hfree⟩, hused⟩ := findEmptyCacheSlot_spec C
  have hneg : ¬ 0 ≤ w.wd := by omega
  rw [← hused, addWatchToCache, set_around hw, used_append, used_cons_of_nonneg hwd]
  conv => rhs; rw [eq_around hw, used_append, used_cons_of_neg hneg]
  exact List.perm_middle

/-- Only paths are rewritten. -/
theorem wd_rewritten (fullPath newPrefix : CStr) (w : Watch) : (rewritten fullPath newPrefix w).wd = w.wd := by
  unfold rewritten
  split
  · rfl
  · rfl

/-- **Paths are rewritten**, descriptors stay where they are. -/
theorem used_rewriteCachedPaths (C : Cache) (a b a' b' : CStr) :
    used (rewriteCachedPaths C a b a' b') = (used C).map
      (rewritten (snprintf PATH_MAX (a.slash b)) (snprintf PATH_MAX (a'.slash b'))) := by
  unfold used rewriteCachedPaths
  rw [List.filter_map]
  congr 1
  refine List.filter_congr fun w _ => ?_
  show decide (0 ≤ (rewritten _ _ w).wd) = _
  rw [wd_rewritten]

end

/-! ## The monitor -/

/-- The masks of `<sys/inotify.h>`. -/
def IN_MOVED_FROM : BitVec 32 := 0x40
def IN_MOVED_TO : BitVec 32 := 0x80
def IN_CREATE : BitVec 32 := 0x100
def IN_DELETE_SELF : BitVec 32 := 0x400
def IN_MOVE_SELF : BitVec 32 := 0x800
def IN_UNMOUNT : BitVec 32 := 0x2000
def IN_Q_OVERFLOW : BitVec 32 := 0x4000
def IN_IGNORED : BitVec 32 := 0x8000
def IN_ISDIR : BitVec 32 := 0x40000000

/-- `struct inotify_event`; `len` counts the name with its padding. -/
structure Event where
  wd : Int
  mask : BitVec 32
  cookie : Nat
  len : Nat
  name : CStr
deriving DecidableEq

/-- `ev->mask & flags`. -/
def Event.has (ev : Event) (flags : BitVec 32) : Bool := ev.mask &&& flags ≠ 0

/-- `sizeof(struct inotify_event) + ev->len`. -/
def Event.size (ev : Event) : Nat := 16 + ev.len

/-- The bytes that the events take in the buffer. -/
def sizes : List Event → Nat
  | [] => 0
  | ev :: evs => ev.size + sizes evs

/-- What `nftw` is at: a directory it calls `traverseTree` for, or one whose entries it reads.  `due`
    are the subdirectories that were there when it began, as far as they have not come up. -/
inductive Frame where
  | visit (path : CStr)
  | scan (path : CStr) (due : List FileName)
deriving DecidableEq

/-- What comes after a walk: the rest of the buffer, the remaining roots of `reinitialize`, or the
    end of a command. -/
inductive AfterWalk where
  | event (rest : List Event) (numRead : Int)
  | build (roots : List (Option CStr))
  | command
deriving DecidableEq

/-- What comes after `zapSubtree`. -/
inductive AfterZap where
  | event (rest : List Event) (numRead : Int)
  | add (path : CStr)
  | command
deriving DecidableEq

/-- The call at which the program is.  In the loop over the events, `buf` are those from `evp` on and
    `numRead` the number of bytes that the program takes them to be.  At the second read, `armed` says
    that the alarm which is to interrupt it has not come. -/
inductive Pc where
  | init
  | select
  | loop (buf : List Event) (numRead : Int) (firstTry : Bool)
  | more (buf : List Event) (numRead : Int) (armed : Bool)
  | walk (stack : List Frame) (ret : AfterWalk)
  | zap (path : CStr) (slot : Nat) (ret : AfterZap)
  | exited
  | undefined
deriving DecidableEq

/-- The global variables of the program, and where it is. -/
structure Monitor where
  cache : Cache
  rootDirPaths : List (Option CStr)
  ignoreRootDirs : Nat
  reinitCnt : Nat
  pc : Pc

/-- The commands of the user; those that only check or print are `other`. -/
inductive Command where
  | add (path : CStr) | zap (path : CStr) | rebuild | quit | other

/-- What the program gets to know. -/
inductive Answer where
  | initialized (ok : Bool)
  | command (cmd : Command)
  | read (evs : List Event)
  | readFails
  | interrupted
  /-- SIGALRM, between `ualarm` and the second read. -/
  | alarm
  /-- No call: the next round of the loop. -/
  | process
  | watched (wd : Int) (due : List FileName)
  | gone (due : List FileName)
  | refused
  | entry (name : FileName) (isDir : Bool)
  | endOfDir
  | nftwFails
  | removed (ok : Bool)

namespace Monitor

variable (m : Monitor)

/-- The head of the loop over the events. -/
def toLoop (buf : List Event) (numRead : Int) (firstTry : Bool) : Monitor :=
  { m with pc := if 0 < numRead then .loop buf numRead firstTry else .select }

/-- The loop of `reinitialize` over the roots. -/
def build : List (Option CStr) → Monitor
  | [] => { m with pc := .select }
  | none :: roots => build roots
  | some root :: roots => { m with pc := .walk [.visit root] (.build roots) }

/-- `reinitialize`, up to `inotify_init`.  Whatever is left in the buffer is discarded. -/
def reinitialize (old : Bool) : Monitor :=
  { m with reinitCnt := if old then m.reinitCnt + 1 else 0, pc := .init }

def watchSubtree (path : CStr) (ret : AfterWalk) : Monitor := { m with pc := .walk [.visit path] ret }

/-- What comes after `nftw`. -/
def walked : AfterWalk → Monitor
  | .event rest numRead => m.toLoop rest numRead true
  | .build roots => m.build roots
  | .command => { m with pc := .select }

/-- `nftw` goes on, or returns. -/
def toWalk (stack : List Frame) (ret : AfterWalk) : Monitor :=
  if stack = [] then m.walked ret else { m with pc := .walk stack ret }

/-- `traverseTree`, with the descriptor that `inotify_add_watch` has returned. -/
def traverseTree (path : CStr) (wd : Int) : Monitor :=
  if (findWatch m.cache wd).isSome then m else { m with cache := addWatchToCache m.cache wd path }

/-- What comes after `zapSubtree`. -/
def zapped : AfterZap → Monitor
  | .event rest numRead => m.toLoop rest numRead true
  | .add path => m.watchSubtree path .command
  | .command => { m with pc := .select }

/-- `zapSubtree` has returned -1. -/
def zapFailed : AfterZap → Monitor
  | .event _ _ => m.reinitialize true
  | .add path => m.watchSubtree path .command
  | .command => { m with pc := .select }

/-- The loop of `zapSubtree`, from slot `j` on. -/
def zapSubtree (path : CStr) (j : Nat) (ret : AfterZap) : Monitor :=
  match nextToZap m.cache path j with
  | some k => { m with pc := .zap path k ret }
  | none => m.zapped ret

/-- A root that was given up is a null pointer, and never found. -/
def findRootDirPath (path : CStr) : Option Nat :=
  m.rootDirPaths.findIdx? fun root => match root with
    | some r => strcmp path r = 0
    | none => false

def isRootDirPath (path : CStr) : Bool := (m.findRootDirPath path).isSome

/-- `zapRootDirPath`, and what comes after it unless the program exits. -/
def zapRootDirPath (path : CStr) (k : Monitor → Monitor) : Monitor :=
  match m.findRootDirPath path with
  | none => { m with pc := .exited }
  | some j =>
    let m' := { m with rootDirPaths := m.rootDirPaths.set j none, ignoreRootDirs := m.ignoreRootDirs + 1 }
    if m'.ignoreRootDirs = m'.rootDirPaths.length then { m' with pc := .exited } else k m'

/-- The slot of the event, if it was looked up. -/
def evCacheSlot (ev : Event) : Option Nat :=
  if ev.wd ≠ -1 ∧ ev.has IN_IGNORED = false then findWatch m.cache ev.wd else none

/-- What is done with the event's slot; a slot that was not looked up is not to be used. -/
def withSlot (ev : Event) (k : Nat → CStr → Monitor) : Monitor :=
  match m.evCacheSlot ev with
  | some slot => match m.cache[slot]? with
    | some w => k slot w.path
    | none => { m with pc := .undefined }
  | none => { m with pc := .undefined }

/-- An `IN_MOVED_FROM`, at the end of the buffer or before `next`. -/
def movedFrom (ev : Event) (rest : List Event) (bufSize : Int) (firstTry : Bool) (path : CStr) : Monitor :=
  let zap := m.zapSubtree (snprintf (PATH_MAX + NAME_MAX) (path.slash ev.name)) 0
    (.event rest (bufSize - ev.size))
  if (ev.size : Int) < bufSize then
    match rest with
    | [] => { m with pc := .undefined }
    | next :: rest' =>
      if next.has IN_MOVED_TO ∧ next.cookie = ev.cookie then
        match findWatch m.cache next.wd with
        | none => m.reinitialize true
        | some slot => match m.cache[slot]? with
          | none => { m with pc := .undefined }
          | some w =>
            toLoop { m with cache := rewriteCachedPaths m.cache path ev.name w.path next.name } rest'
              (bufSize - ev.size - next.size) true
      else zap
  else if firstTry = false then zap
  else { m with pc := .more (ev :: rest) bufSize true }

/-- `processNextInotifyEvent`: `rest` is what follows the event in the buffer, and `bufSize` the number
    of bytes that are left there, of this event on. -/
def processNextInotifyEvent (ev : Event) (rest : List Event) (bufSize : Int) (firstTry : Bool) :
    Monitor :=
  if ev.wd ≠ -1 ∧ ev.has IN_IGNORED = false ∧ findWatch m.cache ev.wd = none then m.reinitialize true
  else if ev.has IN_ISDIR ∧ ev.has (IN_CREATE ||| IN_MOVED_TO) then
    m.withSlot ev fun _ path =>
      let fullPath := snprintf (PATH_MAX + NAME_MAX) (path.slash ev.name)
      if pathnameInCache m.cache fullPath then m.toLoop rest (bufSize - ev.size) true
      else m.watchSubtree fullPath (.event rest (bufSize - ev.size))
  else if ev.has IN_DELETE_SELF then
    m.withSlot ev fun slot path =>
      let mark (m : Monitor) : Monitor :=
        toLoop { m with cache := markCacheSlotEmpty m.cache slot } rest (bufSize - ev.size) true
      if m.isRootDirPath path then m.zapRootDirPath path mark else mark m
  else if ev.mask &&& (IN_MOVED_FROM ||| IN_ISDIR) = IN_MOVED_FROM ||| IN_ISDIR then
    m.withSlot ev fun _ path => m.movedFrom ev rest bufSize firstTry path
  else if ev.has IN_Q_OVERFLOW then m.reinitialize true
  else if ev.has IN_UNMOUNT then
    m.withSlot ev fun slot _ =>
      toLoop { m with cache := markCacheSlotEmpty m.cache slot } rest (bufSize - ev.size) true
  else if ev.has IN_MOVE_SELF then
    m.withSlot ev fun _ path =>
      if m.isRootDirPath path then
        m.zapRootDirPath path fun m => m.zapSubtree path 0 (.event rest (bufSize - ev.size))
      else m.toLoop rest (bufSize - ev.size) true
  else m.toLoop rest (bufSize - ev.size) true

/-- `executeCommand`.  A path that is added is removed first. -/
def executeCommand : Command → Monitor
  | .add path => m.zapSubtree path 0 (.add path)
  | .zap path => m.zapSubtree path 0 .command
  | .rebuild => m.reinitialize false
  | .quit => { m with pc := .exited }
  | .other => m

/-- **One step**, from an answer to the next call. -/
def step (a : Answer) : Option Monitor :=
  match m.pc, a with
  | .init, .initialized true => some (build { m with cache := [] } m.rootDirPaths)
  | .init, .initialized false => some { m with pc := .exited }
  | .select, .command cmd => some (m.executeCommand cmd)
  | .select, .read evs => if evs = [] then none else some (m.toLoop evs (sizes evs) true)
  | .select, .readFails => some { m with pc := .exited }
  | .loop buf numRead firstTry, .process =>
    match buf with
    | [] => some { m with pc := .undefined }
    | ev :: rest => some (m.processNextInotifyEvent ev rest numRead firstTry)
  | .more buf numRead _, .read evs =>
    if evs = [] then none else some (m.toLoop (buf ++ evs) (numRead + sizes evs) false)
  -- `errno != -1` is always true, so the result of the read, -1, is added to the number of bytes
  | .more buf numRead _, .interrupted => some (m.toLoop buf (numRead + -1) false)
  -- the handler returns and there is no other alarm: the read waits for events
  | .more buf numRead true, .alarm => some { m with pc := .more buf numRead false }
  | .more _ _ _, .readFails => some { m with pc := .exited }
  | .walk (.visit path :: stack) ret, .watched wd due =>
    some { m.traverseTree path wd with pc := .walk (.scan path due :: stack) ret }
  | .walk (.visit path :: stack) ret, .gone due =>
    some { m with pc := .walk (.scan path due :: stack) ret }
  | .walk (.visit _ :: _) _, .refused => some { m with pc := .exited }
  | .walk (.scan path due :: stack) ret, .entry name true =>
    some { m with pc := .walk (.visit (path.slash name.str) :: .scan path (due.erase name) :: stack) ret }
  | .walk (.scan _ _ :: _) _, .entry _ false => some m
  | .walk (.scan _ _ :: stack) ret, .endOfDir => some (m.toWalk stack ret)
  | .walk _ ret, .nftwFails => some (m.walked ret)
  | .zap path slot ret, .removed true =>
    some (zapSubtree { m with cache := markCacheSlotEmpty m.cache slot } path (slot + 1) ret)
  | .zap _ _ ret, .removed false => some (m.zapFailed ret)
  | _, _ => none

end Monitor

/-! ### Which step it was -/

section

variable {m m' : Monitor} {path : CStr}

/-- `inotify_init` has succeeded: the cache is built anew. -/
theorem step_initialized (h : m.step (.initialized true) = some m') :
    m.pc = .init ∧ m' = Monitor.build { m with cache := [] } m.rootDirPaths := by
  unfold Monitor.step at h
  split at h <;> try contradiction
  · rename_i hpc _
    exact ⟨hpc, (Option.some.inj h).symm⟩
  · rename_i heq
    nomatch Answer.initialized.inj heq

/-- A read, the first one or the second one for an `IN_MOVED_FROM`. -/
theorem step_read {evs : List Event} (h : m.step (.read evs) = some m') :
    evs ≠ [] ∧ ((m.pc = .select ∧ m' = m.toLoop evs (sizes evs) true) ∨
      ∃ buf numRead armed, m.pc = .more buf numRead armed ∧
        m' = m.toLoop (buf ++ evs) (numRead + sizes evs) false) := by
  unfold Monitor.step at h
  split at h <;> try contradiction
  · rename_i evs' hpc heq
    obtain rfl := Answer.read.inj heq
    split at h
    · nomatch h
    · rename_i hne
      exact ⟨hne, Or.inl ⟨hpc, (Option.some.inj h).symm⟩⟩
  · rename_i buf numRead armed evs' hpc heq
    obtain rfl := Answer.read.inj heq
    split at h
    · nomatch h
    · rename_i hne
      exact ⟨hne, Or.inr ⟨buf, numRead, armed, hpc, (Option.some.inj h).symm⟩⟩

/-- The second read has failed with `EINTR`: its -1 is added to the number of bytes. -/
theorem step_interrupted (h : m.step .interrupted = some m') :
    ∃ buf numRead armed, m.pc = .more buf numRead armed ∧ m' = m.toLoop buf (numRead + -1) false := by
  unfold Monitor.step at h
  split at h <;> try contradiction
  rename_i buf numRead armed hpc _
  exact ⟨buf, numRead, armed, hpc, (Option.some.inj h).symm⟩

/-- The alarm came before the read, and nothing will interrupt that any more. -/
theorem step_alarm (h : m.step .alarm = some m') :
    ∃ buf numRead, m.pc = .more buf numRead true ∧ m' = { m with pc := .more buf numRead false } := by
  unfold Monitor.step at h
  split at h <;> try contradiction
  rename_i buf numRead hpc _
  exact ⟨buf, numRead, hpc, (Option.some.inj h).symm⟩

/-- One round of the loop over the buffer. -/
theorem step_process (h : m.step .process = some m') : ∃ buf numRead firstTry,
    m.pc = .loop buf numRead firstTry ∧
      ∀ ev rest, buf = ev :: rest → m' = m.processNextInotifyEvent ev rest numRead firstTry := by
  unfold Monitor.step at h
  split at h <;> try contradiction
  rename_i buf numRead firstTry hpc _
  refine ⟨buf, numRead, firstTry, hpc, ?_⟩
  rintro ev rest rfl
  exact (Option.some.inj h).symm

/-- A directory of a walk has got its watch, and is read. -/
theorem step_watched {wd : Int} {due : List FileName} (h : m.step (.watched wd due) = some m') :
    ∃ path stack ret, m.pc = .walk (.visit path :: stack) ret ∧
      m' = { m.traverseTree path wd with pc := .walk (.scan path due :: stack) ret } := by
  unfold Monitor.step at h
  split at h <;> try contradiction
  rename_i path stack ret wd' due' hpc heq
  obtain ⟨rfl, rfl⟩ := Answer.watched.inj heq
  exact ⟨path, stack, ret, hpc, (Option.some.inj h).symm⟩

/-- `nftw` goes down into a subdirectory. -/
theorem step_entry {name : FileName} (h : m.step (.entry name true) = some m') :
    ∃ path due stack ret, m.pc = .walk (.scan path due :: stack) ret ∧ m' = { m with
      pc := .walk (.visit (path.slash name.str) :: .scan path (due.erase name) :: stack) ret } := by
  unfold Monitor.step at h
  split at h <;> try contradiction
  · rename_i path due stack ret name' hpc heq
    obtain ⟨rfl, -⟩ := Answer.entry.inj heq
    exact ⟨path, due, stack, ret, hpc, (Option.some.inj h).symm⟩
  · rename_i heq
    nomatch (Answer.entry.inj heq).2

theorem step_endOfDir (h : m.step .endOfDir = some m') :
    ∃ path due stack ret, m.pc = .walk (.scan path due :: stack) ret ∧ m' = m.toWalk stack ret := by
  unfold Monitor.step at h
  split at h <;> try contradiction
  rename_i path due stack ret hpc _
  exact ⟨path, due, stack, ret, hpc, (Option.some.inj h).symm⟩

/-- A watch has been removed, and `zapSubtree` looks on behind its slot. -/
theorem step_removed (h : m.step (.removed true) = some m') : ∃ path slot ret, m.pc = .zap path slot ret ∧
    m' = Monitor.zapSubtree { m with cache := markCacheSlotEmpty m.cache slot } path (slot + 1) ret := by
  unfold Monitor.step at h
  split at h <;> try contradiction
  · rename_i path slot ret hpc _
    exact ⟨path, slot, ret, hpc, (Option.some.inj h).symm⟩
  · rename_i heq
    nomatch Answer.removed.inj heq

end

/-- `main` has copied the arguments and calls `reinitialize(-1)`. -/
def start (roots : List CStr) : Monitor := ⟨[], roots.map some, 0, 0, .init⟩

end LinuxInterface.InotifyDtree
