/-
  inotify/inotify_dtree.c (tlpi-dist) in the world it monitors: directories that are created, moved
  and removed by others, and inotify, which queues events about the directories that are watched.

  1. **The world** — directories with their paths and inodes, watches on inodes, the queue of events,
     and the monitor.  `Act` is what others do and what the monitor's calls do.

  2. **What is underway** — the events that are not processed, the directories that `nftw` is at, and
     from that when others may do what (`Guard`): directories appear while nothing else is underway,
     the rest happens when everything has been processed.
-/
import LinuxInterface.Dist.InotifySound
import Mathlib.Data.List.Nodup
import Mathlib.Logic.Function.Basic

namespace LinuxInterface.InotifyDtree

open LinuxInterface

/-! ## The world -/

/-- A directory: where it is, and the inode that watches stick to. -/
structure Dir where
  path : DirPath
  ino : Nat
deriving DecidableEq

/-- The directories are trees under the roots, with paths that the kernel accepts. -/
structure Tree (roots : List CStr) (dirs : List Dir) : Prop where
  paths : (dirs.map Dir.path).Nodup
  inos : (dirs.map Dir.ino).Nodup
  closed : ∀ d ∈ dirs, ∀ s ∈ d.path.split?, s.1 ∈ dirs.map Dir.path
  root : ∀ d ∈ dirs, d.path.root ∈ roots
  short : ∀ d ∈ dirs, d.path.str.strlen < PATH_MAX

instance (roots : List CStr) (dirs : List Dir) : Decidable (Tree roots dirs) :=
  decidable_of_iff ((dirs.map Dir.path).Nodup ∧ (dirs.map Dir.ino).Nodup ∧
    (∀ d ∈ dirs, ∀ s ∈ d.path.split?, s.1 ∈ dirs.map Dir.path) ∧ (∀ d ∈ dirs, d.path.root ∈ roots) ∧
    ∀ d ∈ dirs, d.path.str.strlen < PATH_MAX)
    ⟨fun h => ⟨h.1, h.2.1, h.2.2.1, h.2.2.2.1, h.2.2.2.2⟩,
      fun h => ⟨h.paths, h.inos, h.closed, h.root, h.short⟩⟩

/-- The monitor and what it monitors.  `outside` are the directories that were last moved out of the
    trees, with the paths they had; `watch` gives an inode its watch descriptor. -/
structure World where
  mon : Monitor
  dirs : List Dir
  outside : List Dir
  watch : Nat → Option Nat
  queue : List Event
  nextWd : Nat
  cookie : Nat

/-- A name and its terminator, padded to a multiple of 16 bytes. -/
def nameLen (n : FileName) : Nat := (n.bytes.length / 16 + 1) * 16

/-- `IN_CREATE`, or `IN_MOVED_TO`. -/
def appeared (moved : Bool) (cookie : Nat) (n : FileName) (wd : Nat) : Event :=
  ⟨wd, (if moved then IN_MOVED_TO else IN_CREATE) ||| IN_ISDIR, cookie, nameLen n, n.str⟩

/-- `IN_MOVED_FROM`, with the cookie of the `IN_MOVED_TO` that belongs to it. -/
def movedFrom (cookie : Nat) (n : FileName) (wd : Nat) : Event :=
  ⟨wd, IN_MOVED_FROM ||| IN_ISDIR, cookie, nameLen n, n.str⟩

/-- An event about the watched directory itself; kernels differ in whether they say that it is one. -/
def selfEvent (mask : BitVec 32) (isDir : Bool) (wd : Nat) : Event :=
  ⟨wd, mask ||| if isDir then IN_ISDIR else 0, 0, 0, CStr.empty⟩

/-- What is reported when a watch is gone. -/
def ignored (wd : Nat) : Event := ⟨wd, IN_IGNORED, 0, 0, CStr.empty⟩

/-- What others do, and the calls of the monitor. -/
inductive Act where
  /-- A directory `n` appears in `q`, created (then it is empty) or moved in, with all that is in it.
      A scan of `q` that is underway may find it (`seen`). -/
  | attach (q : Dir) (n : FileName) (new : List Dir) (moved seen : Bool)
  | detach (q : Dir) (n : FileName)
  | rename (q : Dir) (n : FileName) (q' : Dir) (n' : FileName)
  | rmdir (d : Dir) (isDir : Bool)
  | moveRoot (d : Dir) (isDir : Bool)
  | init | process | read (k : Nat) | timeout | alarm
  | addWatch | entry (n : FileName) | endOfDir | rmWatch

namespace World

variable (w : World)

/-- The event about a watched inode. -/
def report (i : Nat) (ev : Nat → Event) : List Event := (w.watch i).toList.map ev

/-- The directory that a path leads to. -/
def lookup (path : CStr) : Option Dir := w.dirs.find? fun d => d.path.str = path

/-- The names of the directories in `p`. -/
def children (p : DirPath) : List FileName :=
  w.dirs.filterMap fun d => d.path.split?.bind fun s => if s.1 = p then some s.2 else none

end World

/-- A scan of `path` will find `n`. -/
def Frame.sees (path : CStr) (n : FileName) : Frame → Frame
  | .visit p => .visit p
  | .scan p due => if p = path then .scan p (due ++ [n]) else .scan p due

/-- A walk that is reading the directory may come to see a new entry. -/
def Monitor.sees (m : Monitor) (path : CStr) (n : FileName) : Monitor :=
  match m.pc with
  | .walk stack ret => { m with pc := .walk (stack.map (Frame.sees path n)) ret }
  | _ => m

/-- A directory below `src` is below `dst` now. -/
def Dir.moved (src dst : DirPath) (d : Dir) : Dir := { d with path := src.rebase dst d.path }

namespace World

variable (w : World)

/-- A directory is made, or a tree is moved in, below `q`. -/
def attach (q : Dir) (n : FileName) (new : List Dir) (moved seen : Bool) : World :=
  { w with
    dirs := w.dirs ++ new
    queue := w.queue ++ w.report q.ino (appeared moved w.cookie n)
    cookie := w.cookie + 1
    mon := if seen then w.mon.sees q.path.str n else w.mon }

/-- What is below `p` leaves the trees, with the given events. -/
def moveOut (p : DirPath) (evs : List Event) : World :=
  { w with
    dirs := w.dirs.filter fun d => ¬ p.Above d.path
    outside := w.dirs.filter fun d => p.Above d.path
    queue := w.queue ++ evs
    cookie := w.cookie + 1 }

/-- The tree is moved inside, with two events that belong together. -/
def rename (q : Dir) (n : FileName) (q' : Dir) (n' : FileName) : World :=
  { w with
    dirs := w.dirs.map (Dir.moved (q.path.child n) (q'.path.child n'))
    queue := w.queue ++ w.report q.ino (movedFrom w.cookie n) ++ w.report q'.ino (appeared true w.cookie n')
    cookie := w.cookie + 1 }

/-- A directory without subdirectories is removed, and its watch with it. -/
def rmdir (d : Dir) (isDir : Bool) : World :=
  { w with
    dirs := w.dirs.filter (· ≠ d)
    watch := Function.update w.watch d.ino none
    queue := w.queue ++ w.report d.ino (selfEvent IN_DELETE_SELF isDir) ++ w.report d.ino ignored }

/-- The monitor goes on. -/
def answered (a : Answer) : Option World := (w.mon.step a).map fun m => { w with mon := m }

/-- `inotify_add_watch`. -/
def addWatch (path : CStr) : Option World :=
  match w.lookup path with
  | none => w.answered (.gone [])
  | some d => match w.watch d.ino with
    | some k => w.answered (.watched k (w.children d.path))
    | none => (w.answered (.watched w.nextWd (w.children d.path))).map fun w' =>
        { w' with watch := Function.update w.watch d.ino (some w.nextWd), nextWd := w.nextWd + 1 }

/-- `inotify_rm_watch`. -/
def rmWatch (wd : Int) : Option World :=
  match (w.dirs ++ w.outside).find? fun d => (w.watch d.ino).map Int.ofNat = some wd with
  | none => w.answered (.removed false)
  | some d => (w.answered (.removed true)).map fun w' =>
      { w' with watch := Function.update w.watch d.ino none, queue := w.queue ++ w.report d.ino ignored }

/-- **One step** of all: of others, of the monitor, or of its alarm. -/
def step : Act → Option World
  | .attach q n new moved seen => some (w.attach q n new moved seen)
  | .detach q n => some (w.moveOut (q.path.child n) (w.report q.ino (movedFrom w.cookie n)))
  | .rename q n q' n' => some (w.rename q n q' n')
  | .rmdir d isDir => some (w.rmdir d isDir)
  | .moveRoot d isDir => some (w.moveOut d.path (w.report d.ino (selfEvent IN_MOVE_SELF isDir)))
  | .init => (w.answered (.initialized true)).map fun w' =>
      { w' with watch := fun _ => none, queue := [], nextWd := 1 }
  | .process => w.answered .process
  | .read k =>
    if 0 < k ∧ k ≤ w.queue.length then
      (w.answered (.read (w.queue.take k))).map fun w' => { w' with queue := w.queue.drop k }
    else none
  -- the alarm comes while the read waits
  | .timeout => match w.mon.pc with
    | .more _ _ true => if w.queue = [] then w.answered .interrupted else none
    | _ => none
  | .alarm => w.answered .alarm
  | .addWatch => match w.mon.pc with
    | .walk (.visit path :: _) _ => w.addWatch path
    | _ => none
  | .entry n => match w.mon.pc with
    | .walk (.scan _ due :: _) _ => if n ∈ due then w.answered (.entry n true) else none
    | _ => none
  | .endOfDir => match w.mon.pc with
    | .walk (.scan _ [] :: _) _ => w.answered .endOfDir
    | _ => none
  | .rmWatch => match w.mon.pc with
    | .zap _ slot _ => w.mon.cache[slot]?.bind fun s => w.rmWatch s.wd
    | _ => none

end World

/-! ## What is underway -/

def AfterWalk.buffer : AfterWalk → List Event
  | .event rest _ => rest
  | _ => []

def AfterWalk.toBuild : AfterWalk → List (Option CStr)
  | .build roots => roots
  | _ => []

def AfterZap.buffer : AfterZap → List Event
  | .event rest _ => rest
  | _ => []

/-- The events that the program has read and not processed. -/
def Pc.buffer : Pc → List Event
  | .loop buf _ _ => buf
  | .more buf _ _ => buf
  | .walk _ ret => ret.buffer
  | .zap _ _ ret => ret.buffer
  | _ => []

/-- The directories that `nftw` is at. -/
def Pc.stack : Pc → List Frame
  | .walk stack _ => stack
  | _ => []

namespace World

variable (w : World)

/-- The events in the buffer and those still in the queue. -/
def unread : List Event := w.mon.pc.buffer ++ w.queue

/-- The roots that `reinitialize` has still to come to. -/
def toBuild : List (Option CStr) :=
  match w.mon.pc with
  | .init => w.mon.rootDirPaths
  | .walk _ ret => ret.toBuild
  | _ => []

/-- Everything has been processed. -/
def Calm : Prop := w.mon.pc = .select ∧ w.queue = []

instance : Decidable w.Calm := inferInstanceAs (Decidable (_ ∧ _))

/-- Nothing but directories that appear is underway. -/
def Growing : Prop :=
  (match w.mon.pc with
    | .zap _ _ _ | .exited => False
    | _ => True) ∧
  ∀ ev ∈ w.unread, ev.has (IN_CREATE ||| IN_MOVED_TO) ∨ ev.mask = IN_IGNORED

instance : Decidable w.Growing := by
  unfold Growing
  cases w.mon.pc <;> infer_instance

end World

/-- **What others may do**: directories appear at any moment, also during a scan, unless something
    else is underway; they are removed, renamed and moved out when everything has been processed.
    The two events of a rename come together.  Nothing appears in what was moved out. -/
def Guard (roots : List CStr) (w : World) : Act → Prop
  | .attach q n new moved _ => w.Growing ∧ q ∈ w.dirs ∧ q.path.child n ∈ new.map Dir.path ∧
      (∀ d ∈ new, (q.path.child n).Above d.path) ∧ (∀ d ∈ new, w.watch d.ino = none) ∧
      (moved = false → new.length = 1) ∧ Tree roots (w.dirs ++ new)
  | .detach q n => w.Calm ∧ q ∈ w.dirs ∧ q.path.child n ∈ w.dirs.map Dir.path
  | .rename q n q' n' => w.Calm ∧ q ∈ w.dirs ∧ q' ∈ w.dirs ∧ q.path.child n ∈ w.dirs.map Dir.path ∧
      q'.path.child n' ∉ w.dirs.map Dir.path ∧ ¬ (q.path.child n).Above q'.path ∧
      ∀ d ∈ w.dirs, (d.moved (q.path.child n) (q'.path.child n')).path.str.strlen < PATH_MAX
  | .rmdir d _ => w.Calm ∧ d ∈ w.dirs ∧ ∀ d' ∈ w.dirs, d.path.Above d'.path → d' = d
  | .moveRoot d _ => w.Calm ∧ d ∈ w.dirs ∧ d.path.names = []
  | _ => True

instance (roots : List CStr) (w : World) (a : Act) : Decidable (Guard roots w a) := by
  cases a <;> unfold Guard <;> infer_instance

/-- The program is started on trees that are there.  No root is within another, and none has a slash
    at its end, which `nftw` would take off. -/
structure Start (roots : List CStr) (w : World) : Prop where
  mon : w.mon = start roots
  nonempty : roots ≠ []
  nodup : roots.Nodup
  plain : ∀ r ∈ roots, r.bytes ≠ [] ∧ r.bytes.getLast? ≠ some SLASH
  apart : Apart roots
  tree : Tree roots w.dirs
  present : ∀ r ∈ roots, (⟨r, []⟩ : DirPath) ∈ w.dirs.map Dir.path
  unwatched : ∀ i, w.watch i = none
  quiet : w.queue = []
  nextWd : w.nextWd = 1

end LinuxInterface.InotifyDtree
