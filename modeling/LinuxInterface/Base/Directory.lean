/-
  Files in directories.

  1. **Paths** — a path is a name behind what leads to its directory, which is everything up to the
     last slash (`splitPath`).

  2. **The file system** — which directory a beginning of a path leads to, and what there is under
     which name in a directory.  `create` and `remove` change one name, the one the path resolves to
     (`resolve_append`), and a sequence of such changes is told from the set of names alone
     (`node_putAll`).

  3. **What is removed** — the name that a call of `remove` takes out of a directory, if it does
     (`removes`); nothing else happens to the file system (`remove_eq`).
-/
import LinuxInterface.Base.CString

namespace LinuxInterface

/-! ## Paths -/

/-- `/`. -/
def SLASH : UInt8 := 47

/-- What can stand in a directory. -/
structure FileName where
  bytes : List UInt8
  valid : bytes ≠ [] ∧ SLASH ∉ bytes ∧ 0 ∉ bytes ∧ bytes ≠ [46] ∧ bytes ≠ [46, 46]
deriving DecidableEq

/-- The name that is written in this way, if it is one. -/
def FileName.of? (bytes : List UInt8) : Option FileName :=
  if h : bytes ≠ [] ∧ SLASH ∉ bytes ∧ 0 ∉ bytes ∧ bytes ≠ [46] ∧ bytes ≠ [46, 46] then
    some ⟨bytes, h⟩
  else none

/-- A name as a C string. -/
def FileName.str (nm : FileName) : CStr := ⟨nm.bytes, nm.valid.2.2.1⟩

/-- Everything up to the last slash, and the name behind it. -/
def splitPath (path : List UInt8) : List UInt8 × List UInt8 :=
  ((path.reverse.dropWhile (· ≠ SLASH)).reverse, (path.reverse.takeWhile (· ≠ SLASH)).reverse)

theorem FileName.ext {nm nm' : FileName} (h : nm.bytes = nm'.bytes) : nm = nm' := by
  cases nm
  cases nm'
  cases h
  rfl

theorem FileName.of?_bytes (nm : FileName) : FileName.of? nm.bytes = some nm := dif_pos nm.valid

theorem FileName.bytes_of_of? {bytes : List UInt8} {nm : FileName} (h : FileName.of? bytes = some nm) :
    nm.bytes = bytes := by
  unfold FileName.of? at h
  split at h
  · rw [← Option.some.inj h]
  · nomatch h

theorem append_splitPath (path : List UInt8) : (splitPath path).1 ++ (splitPath path).2 = path := by
  rw [splitPath, ← List.reverse_append, List.takeWhile_append_dropWhile, List.reverse_reverse]

theorem splitPath_append (dir : List UInt8) {name : List UInt8} (h : SLASH ∉ name) :
    splitPath (dir ++ SLASH :: name) = (dir ++ [SLASH], name) := by
  have hrev : (dir ++ SLASH :: name).reverse = name.reverse ++ SLASH :: dir.reverse := by simp
  have hname : ∀ c ∈ name.reverse, decide (c ≠ SLASH) = true := by
    intro c hc
    exact decide_eq_true fun heq => h (heq ▸ List.mem_reverse.mp hc)
  rw [splitPath, hrev, List.takeWhile_append_of_pos hname, List.dropWhile_append_of_pos hname]
  simp

/-! ## The file system -/

/-- What there is under a name. -/
inductive Node where
  | file (content : List UInt8)
  | dir
deriving DecidableEq

/-- The directory that the beginning of a path up to a slash leads to, and what there is in every
    directory. -/
structure Fs where
  dirAt : List UInt8 → Option Nat
  node : Nat → FileName → Option Node

namespace Fs

variable (fs : Fs)

/-- What a path stands for: a name in a directory. -/
def resolve (path : List UInt8) : Option (Nat × FileName) :=
  (fs.dirAt (splitPath path).1).bind fun d => (FileName.of? (splitPath path).2).map fun nm => (d, nm)

def put (d : Nat) (nm : FileName) (x : Option Node) : Fs :=
  { fs with node := fun d' nm' => if d' = d ∧ nm' = nm then x else fs.node d' nm' }

/-- The same for several names. -/
def putAll (d : Nat) (nms : List FileName) (x : Option Node) : Fs :=
  nms.foldl (fun fs nm => fs.put d nm x) fs

/-- What a name is set to, unless the path does not resolve or stands for a directory. -/
def assign (path : List UInt8) (x : Option Node) : Fs :=
  match fs.resolve path with
  | none => fs
  | some (d, nm) => if fs.node d nm = some .dir then fs else fs.put d nm x

/-- `fopen(path, "wb")`, and if it succeeds the file is filled and closed. -/
def create (path : CStr) (content : List UInt8) : Fs := fs.assign path.bytes (some (.file content))

/-- `remove(path)` for a file. -/
def remove (path : CStr) : Fs := fs.assign path.bytes none

/-- The name that `remove(path)` takes out of its directory. -/
def removes (path : CStr) : Option (Nat × FileName) :=
  (fs.resolve path.bytes).filter fun r => match fs.node r.1 r.2 with
    | some (.file _) => true
    | _ => false

/-- Names that are taken out one after the other. -/
def takeOut (rs : List (Nat × FileName)) : Fs := rs.foldl (fun fs r => fs.put r.1 r.2 none) fs

/-- `opendir(path)`. -/
def opendir (path : CStr) : Option Nat :=
  if path.bytes = [] then none else fs.dirAt (path.bytes ++ [SLASH])

/-- What `readdir` returns, `.` and `..` apart, is these names in this order. -/
structure Lists (d : Nat) (nms : List FileName) : Prop where
  nodup : nms.Nodup
  mem_iff : ∀ nm, nm ∈ nms ↔ (fs.node d nm).isSome

section

variable {fs} {d : Nat} {dir : List UInt8} {nm : FileName} {nms : List FileName} {x : Option Node}

theorem resolve_append (hdir : fs.dirAt (dir ++ [SLASH]) = some d) (nm : FileName) :
    fs.resolve (dir ++ SLASH :: nm.bytes) = some (d, nm) := by
  rw [resolve, splitPath_append dir nm.valid.2.1, hdir, FileName.of?_bytes]
  rfl

/-- A path into a directory resolves to a name in it. -/
theorem eq_of_resolve_append {name : List UInt8} (hname : SLASH ∉ name)
    (h : fs.resolve (dir ++ SLASH :: name) = some (d, nm)) : nm.bytes = name := by
  rw [resolve, splitPath_append dir hname] at h
  obtain ⟨d', -, hof⟩ := Option.bind_eq_some_iff.mp h
  obtain ⟨nm', hnm, heq⟩ := Option.map_eq_some_iff.mp hof
  rw [← (Prod.mk.inj heq).2]
  exact FileName.bytes_of_of? hnm

/-- What a path that resolves looks like. -/
theorem bytes_of_resolve {path : List UInt8} (h : fs.resolve path = some (d, nm)) :
    ∃ dir, fs.dirAt dir = some d ∧ path = dir ++ nm.bytes := by
  obtain ⟨d', hdir, hname⟩ := Option.bind_eq_some_iff.mp h
  obtain ⟨nm', hnm, heq⟩ := Option.map_eq_some_iff.mp hname
  obtain ⟨rfl, rfl⟩ := Prod.mk.inj heq
  refine ⟨(splitPath path).1, hdir, ?_⟩
  rw [FileName.bytes_of_of? hnm, append_splitPath]

/-- A path into a directory, under a name that is not one of a subdirectory. -/
theorem assign_append (hdir : fs.dirAt (dir ++ [SLASH]) = some d) (hnode : fs.node d nm ≠ some .dir) :
    fs.assign (dir ++ SLASH :: nm.bytes) x = fs.put d nm x := by
  rw [assign, resolve_append hdir]
  exact if_neg hnode

theorem dirAt_assign (fs : Fs) (path : List UInt8) (x : Option Node) :
    (fs.assign path x).dirAt = fs.dirAt := by
  rw [assign]
  cases fs.resolve path with
  | none => rfl
  | some r =>
    dsimp only
    split
    · rfl
    · rfl

/-- **One change.** -/
theorem node_assign (fs : Fs) (path : List UInt8) (x : Option Node) (d : Nat) (nm : FileName) :
    (fs.assign path x).node d nm =
      if fs.resolve path = some (d, nm) ∧ fs.node d nm ≠ some .dir then x else fs.node d nm := by
  rw [assign]
  cases hres : fs.resolve path with
  | none => exact (if_neg fun h => nomatch h.1).symm
  | some r =>
    obtain ⟨d', nm'⟩ := r
    dsimp only
    by_cases heq : d = d' ∧ nm = nm'
    · obtain ⟨rfl, rfl⟩ := heq
      by_cases hnode : fs.node d nm = some .dir
      · rw [if_pos hnode, if_neg fun h => h.2 hnode]
      · rw [if_neg hnode, if_pos ⟨rfl, hnode⟩]
        exact if_pos ⟨rfl, rfl⟩
    · have hother : ¬(some (d', nm') = some (d, nm) ∧ fs.node d nm ≠ some .dir) := by
        rintro ⟨h, -⟩
        obtain ⟨rfl, rfl⟩ := Prod.mk.inj (Option.some.inj h)
        exact heq ⟨rfl, rfl⟩
      rw [if_neg hother]
      split
      · rfl
      · exact if_neg heq

/-- What is already there is put there without effect. -/
theorem put_self (h : fs.node d nm = x) : fs.put d nm x = fs := by
  have hsame : ∀ d' nm', (fs.put d nm x).node d' nm' = fs.node d' nm' := by
    intro d' nm'
    show (if d' = d ∧ nm' = nm then x else fs.node d' nm') = _
    by_cases heq : d' = d ∧ nm' = nm
    · rw [if_pos heq, heq.1, heq.2, h]
    · rw [if_neg heq]
  show Fs.mk fs.dirAt (fs.put d nm x).node = _
  rw [funext fun d' => funext (hsame d')]

/-- **`remove`** takes out the name it removes, or does nothing. -/
theorem remove_eq (fs : Fs) (path : CStr) : fs.remove path = fs.takeOut (fs.removes path).toList := by
  rw [remove, assign, removes]
  cases fs.resolve path.bytes with
  | none => rfl
  | some r =>
    obtain ⟨d, nm⟩ := r
    dsimp only
    cases hnode : fs.node d nm with
    | none =>
      -- what is not there is not removed
      rw [if_neg fun h => (nomatch h), put_self hnode, Option.filter_some, hnode]
      rfl
    | some x =>
      cases x with
      | dir =>
        rw [if_pos rfl, Option.filter_some, hnode]
        rfl
      | file content =>
        rw [if_neg fun h => (nomatch h), Option.filter_some, hnode]
        rfl

/-- A file that is there is removed. -/
theorem removes_append {path : CStr} {content : List UInt8}
    (hdir : fs.dirAt (dir ++ [SLASH]) = some d) (hpath : path.bytes = dir ++ SLASH :: nm.bytes)
    (hnode : fs.node d nm = some (.file content)) : fs.removes path = some (d, nm) := by
  rw [removes, hpath, resolve_append hdir, Option.filter_some, hnode]
  rfl

theorem dirAt_putAll (fs : Fs) (nms : List FileName) : (fs.putAll d nms x).dirAt = fs.dirAt := by
  induction nms generalizing fs with
  | nil => rfl
  | cons nm nms ih => exact ih (fs.put d nm x)

/-- **A sequence of changes**: every name is set or as before. -/
theorem node_putAll (fs : Fs) (nms : List FileName) (d' : Nat) (nm' : FileName) :
    (fs.putAll d nms x).node d' nm' = if d' = d ∧ nm' ∈ nms then x else fs.node d' nm' := by
  induction nms generalizing fs with
  | nil => exact (if_neg fun h => List.not_mem_nil h.2).symm
  | cons nm nms ih =>
    show (putAll (fs.put d nm x) d nms x).node d' nm' = _
    rw [ih]
    show (if d' = d ∧ nm' ∈ nms then x else if d' = d ∧ nm' = nm then x else fs.node d' nm') = _
    by_cases hmem : d' = d ∧ nm' ∈ nms
    · rw [if_pos hmem, if_pos ⟨hmem.1, List.mem_cons_of_mem nm hmem.2⟩]
    · rw [if_neg hmem]
      by_cases heq : d' = d ∧ nm' = nm
      · rw [if_pos heq, if_pos ⟨heq.1, heq.2 ▸ List.mem_cons_self⟩]
      · rw [if_neg heq, if_neg]
        rintro ⟨hd, h⟩
        rcases List.mem_cons.mp h with h | h
        · exact heq ⟨hd, h⟩
        · exact hmem ⟨hd, h⟩

/-- Paths into one directory, under names that are not those of subdirectories. -/
theorem foldl_assign {α : Type} {path : α → List UInt8} {name : α → FileName} (as : List α)
    (hpath : ∀ a ∈ as, path a = dir ++ SLASH :: (name a).bytes)
    (hdir : fs.dirAt (dir ++ [SLASH]) = some d) (hx : x ≠ some .dir)
    (hnode : ∀ a ∈ as, fs.node d (name a) ≠ some .dir) :
    as.foldl (fun fs a => fs.assign (path a) x) fs = fs.putAll d (as.map name) x := by
  induction as generalizing fs with
  | nil => rfl
  | cons a as ih =>
    obtain ⟨hpa, hpath⟩ := List.forall_mem_cons.mp hpath
    obtain ⟨hna, hnode⟩ := List.forall_mem_cons.mp hnode
    rw [List.foldl_cons, hpa, assign_append hdir hna]
    have hput : (fs.put d (name a) x).dirAt (dir ++ [SLASH]) = some d := hdir
    refine ih hpath hput fun b hb => ?_
    show (if _ then x else fs.node d (name b)) ≠ some .dir
    split
    · exact hx
    · exact hnode b hb

end

end Fs

end LinuxInterface
