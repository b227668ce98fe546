/-
  ch04/1_tee.c: `tee`, which copies its input to standard output and to files.

  1. **The program** — as a machine: the options are parsed, `num_files` is set, the files are opened
     and stored one by one, then the input is copied line by line (`step`).  A step that uses a
     stream that is not there is `none`.  A store behind the end of `files` is not: `main` goes on,
     and the memory there is taken to be that of no other variable.

  2. **The table of files** — how many streams `files` has at each place of `main` (`TableAt.step`).

  3. **Copying** — what is copied of each line that `fgets` delivers is the string in the buffer.  At
     the end every output has the strings of all lines (`tee_ends`), and this is the input iff
     there is no zero byte in it (`tee_copies_iff`).

  4. **The signal handler** — it closes `files[0]` to `files[num_files - 1]`, whenever it runs.
     `num_files` is set before the first file is open and not compared with `FILE_LIMIT`; only
     before that, and when all the files are stored and there are not too many of them, can the
     handler run (`tableSafe_iff`).
-/
import LinuxInterface.Base.Loop
import LinuxInterface.Base.OpenFile
import LinuxInterface.Base.Reach
import LinuxInterface.Base.Scanf
import LinuxInterface.Base.Stdio

namespace LinuxInterface.Tee

open LinuxInterface

/-! ## The program -/

def BUFFER_SIZE : Nat := 1024

def FILE_LIMIT : Nat := 20

/-- What `getopt` makes of the arguments: the letters of the options, in the order in which it
    returns them, and the arguments that are left.  Options may stand behind other arguments, and
    everything behind `--` is no option. -/
def getopt : List (List UInt8) → List UInt8 × List (List UInt8)
  | [] => ([], [])
  | arg :: args =>
    if arg = [45, 45] then ([], args)
    else
      match arg with
      | 45 :: c :: cs => (c :: cs ++ (getopt args).1, (getopt args).2)
      | _ => ((getopt args).1, arg :: (getopt args).2)

/-- A `FILE` that was opened by `fopen(path, mode)`. -/
structure Stream where
  path : List UInt8
  append : Bool
  offset : Nat
  isOpen : Bool
  deriving DecidableEq

/-- The files by their paths, and the streams in the order in which they were opened. -/
structure Disk where
  streams : List Stream
  content : List UInt8 → Option (List UInt8)

namespace Disk

variable (d : Disk)

/-- `fopen(path, "a")` or `fopen(path, "w")`. -/
def fopen (path : List UInt8) (append : Bool) : Disk where
  streams := d.streams ++ [⟨path, append, 0, true⟩]
  content := fun p =>
    if p = path then some (if append then (d.content p).getD [] else []) else d.content p

/-- `fwrite(data, 1, …, stream)`. -/
def fwrite (stream : Nat) (data : List UInt8) : Option Disk :=
  match d.streams[stream]? with
  | none => none
  | some f =>
    if f.isOpen then
      some
        { streams := d.streams.set stream { f with offset := f.offset + data.length }
          content := fun p =>
            if p = f.path then
              some (if f.append then (d.content p).getD [] ++ data
                else writeAt ((d.content p).getD []) f.offset data)
            else d.content p }
    else none

/-- `fclose(stream)`. -/
def fclose (stream : Nat) : Option Disk :=
  match d.streams[stream]? with
  | none => none
  | some f => if f.isOpen then some { d with streams := d.streams.set stream { f with isOpen := false } }
    else none

end Disk

/-- How `tee` ends. -/
inductive Exit where
  | success
  | failure (message : List UInt8)
  deriving DecidableEq

/-- Where `main` is: at the `getopt`, at the assignment to `num_files`, before the `i`-th file is
    opened, before the stream of the `i`-th file is stored, at the `fgets`. -/
inductive Pc where
  | parsing
  | counting
  | opening (i : Nat)
  | storing (i pFile : Nat)
  | copying
  | exited (e : Exit)
  deriving DecidableEq

structure State where
  pc : Pc
  options : List UInt8
  operands : List (List UInt8)
  isAppend : Bool
  numFiles : Nat
  /-- The pointers from `files` on; those from `files[FILE_LIMIT]` on are not in the array. -/
  files : Nat → Option Nat
  disk : Disk
  stdin : List UInt8
  stdout : List UInt8

/-- ``"Unknown option `-%c' .\n"``, for a `'?'` from `getopt` is printable. -/
def unknownOption (c : UInt8) : List UInt8 :=
  ascii ['U', 'n', 'k', 'n', 'o', 'w', 'n', ' ', 'o', 'p', 't', 'i', 'o', 'n', ' '] ++
    [96, 45, c, 39] ++ ascii [' ', '.', '\n']

/-- `"Unable to open file %s for mode %s"`. -/
def unableToOpen (path : List UInt8) (append : Bool) : List UInt8 :=
  ascii ['U', 'n', 'a', 'b', 'l', 'e', ' ', 't', 'o', ' ', 'o', 'p', 'e', 'n', ' ', 'f', 'i', 'l',
    'e', ' '] ++ path ++ ascii [' ', 'f', 'o', 'r', ' ', 'm', 'o', 'd', 'e', ' '] ++
    ascii [if append then 'a' else 'w']

/-- A loop over `files[0]` to `files[n - 1]`. -/
def forFiles (files : Nat → Option Nat) (f : Disk → Nat → Option Disk) (d : Disk) (n : Nat) :
    Option Disk :=
  (List.range n).foldlM (fun d i =>
    match files i with
    | some stream => f d stream
    | none => none) d

/-- What `main` does next; `ok` says whether a file can be opened. -/
def step (s : State) (ok : Bool) : Option State :=
  match s.pc with
  | .parsing =>
    match s.options with
    | [] => some { s with pc := .counting }
    | c :: options =>
      -- `case 'a'`, and `'?'` for every other letter
      if c = 97 then some { s with isAppend := true, options := options }
      else some { s with pc := .exited (.failure (unknownOption c)) }
  -- nothing is open yet, but the handler goes by `num_files` from here on
  | .counting => some { s with numFiles := s.operands.length, pc := .opening 0 }
  | .opening i =>
    match s.operands[i]? with
    | none => some { s with pc := .copying }
    | some path =>
      if ok then
        some { s with disk := s.disk.fopen path s.isAppend, pc := .storing i s.disk.streams.length }
      else some { s with pc := .exited (.failure (unableToOpen path s.isAppend)) }
  -- `i` is not compared with `FILE_LIMIT`
  | .storing i pFile =>
    some { s with files := Function.update s.files i (some pFile), pc := .opening (i + 1) }
  | .copying =>
    match fgets BUFFER_SIZE s.stdin with
    | none => some { s with pc := .exited .success }
    | some (buffer, rest) =>
      -- `bytes_read` is `strlen(buffer)`
      (forFiles s.files (·.fwrite · (cstring buffer)) s.disk s.numFiles).map fun disk =>
        { s with disk := disk, stdin := rest, stdout := s.stdout ++ cstring buffer }
  | .exited _ => none

/-- `handle_sigint`: the files when they are closed. -/
def handleSigint (s : State) : Option Disk := forFiles s.files Disk.fclose s.disk s.numFiles

/-- `main` with these arguments, files and input, when the handler is installed. -/
def start (args : List (List UInt8)) (content : List UInt8 → Option (List UInt8))
    (input : List UInt8) : State where
  pc := .parsing
  options := (getopt args).1
  operands := (getopt args).2
  isAppend := false
  numFiles := 0
  files := fun _ => none
  disk := ⟨[], content⟩
  stdin := input
  stdout := []

/-- How many steps there are at most. -/
def State.left (s : State) : Nat :=
  match s.pc with
  | .parsing => s.options.length + 2 * s.operands.length + s.stdin.length + 4
  | .counting => 2 * s.operands.length + s.stdin.length + 3
  | .opening i => 2 * (s.operands.length - i) + s.stdin.length + 2
  | .storing i _ => 2 * (s.operands.length - i) + s.stdin.length + 1
  | .copying => s.stdin.length + 1
  | .exited _ => 0

/-- `main` to its end, if all files can be opened. -/
def tee (s : State) : Option State :=
  loopN (toEnd (step · true)) (s.left + 1) s

/-- The steps of `main`, one by one. -/
inductive Move (s : State) : Bool → State → Prop where
  | parsed {ok : Bool} (pc : s.pc = .parsing) (opt : s.options = []) :
      Move s ok { s with pc := .counting }
  | append {ok : Bool} {options : List UInt8} (pc : s.pc = .parsing)
      (opt : s.options = 97 :: options) :
      Move s ok { s with isAppend := true, options := options }
  | unknown {ok : Bool} {c : UInt8} {options : List UInt8} (pc : s.pc = .parsing)
      (opt : s.options = c :: options) (hc : c ≠ 97) :
      Move s ok { s with pc := .exited (.failure (unknownOption c)) }
  | counted {ok : Bool} (pc : s.pc = .counting) :
      Move s ok { s with numFiles := s.operands.length, pc := .opening 0 }
  | allOpen {ok : Bool} {i : Nat} (pc : s.pc = .opening i) (operand : s.operands[i]? = none) :
      Move s ok { s with pc := .copying }
  | opened {i : Nat} {path : List UInt8} (pc : s.pc = .opening i)
      (operand : s.operands[i]? = some path) :
      Move s true
        { s with disk := s.disk.fopen path s.isAppend, pc := .storing i s.disk.streams.length }
  | refused {i : Nat} {path : List UInt8} (pc : s.pc = .opening i)
      (operand : s.operands[i]? = some path) :
      Move s false { s with pc := .exited (.failure (unableToOpen path s.isAppend)) }
  | stored {ok : Bool} {i pFile : Nat} (pc : s.pc = .storing i pFile) :
      Move s ok { s with files := Function.update s.files i (some pFile), pc := .opening (i + 1) }
  | copied {ok : Bool} {buffer rest : List UInt8} {disk : Disk} (pc : s.pc = .copying)
      (read : fgets BUFFER_SIZE s.stdin = some (buffer, rest))
      (write : forFiles s.files (·.fwrite · (cstring buffer)) s.disk s.numFiles = some disk) :
      Move s ok { s with disk := disk, stdin := rest, stdout := s.stdout ++ cstring buffer }
  | finished {ok : Bool} (pc : s.pc = .copying) (read : fgets BUFFER_SIZE s.stdin = none) :
      Move s ok { s with pc := .exited .success }

theorem move_of_step {s s' : State} {ok : Bool} (h : step s ok = some s') : Move s ok s' := by
  unfold step at h
  split at h
  · next hpc =>
    split at h
    · next hopt =>
      obtain rfl := Option.some.inj h
      exact .parsed hpc hopt
    · next c options hopt =>
      split at h
      · next hc =>
        obtain rfl := Option.some.inj h
        exact .append hpc (hc ▸ hopt)
      · next hc =>
        obtain rfl := Option.some.inj h
        exact .unknown hpc hopt hc
  · next hpc =>
    obtain rfl := Option.some.inj h
    exact .counted hpc
  · next i hpc =>
    split at h
    · next hnone =>
      obtain rfl := Option.some.inj h
      exact .allOpen hpc hnone
    · next path hpath =>
      cases ok with
      | true =>
        obtain rfl := Option.some.inj h
        exact .opened hpc hpath
      | false =>
        obtain rfl := Option.some.inj h
        exact .refused hpc hpath
  · next i pFile hpc =>
    obtain rfl := Option.some.inj h
    exact .stored hpc
  · next hpc =>
    split at h
    · next hread =>
      obtain rfl := Option.some.inj h
      exact .finished hpc hread
    · next buffer rest hread =>
      -- all the writes go through
      obtain ⟨disk, hwrite, rfl⟩ := Option.map_eq_some_iff.mp h
      exact .copied hpc hread hwrite
  · nomatch h

/-- Where `main` does not get any further: at its end, and where it would write to a stream that is
    not there. -/
inductive Stuck (s : State) : Prop where
  | exited {e : Exit} (pc : s.pc = .exited e)
  | unstored {buffer rest : List UInt8} (pc : s.pc = .copying)
      (read : fgets BUFFER_SIZE s.stdin = some (buffer, rest))
      (write : forFiles s.files (·.fwrite · (cstring buffer)) s.disk s.numFiles = none)

theorem stuck_of_step {s : State} {ok : Bool} (h : step s ok = none) : Stuck s := by
  unfold step at h
  split at h
  · split at h
    · nomatch h
    · split at h <;> nomatch h
  · nomatch h
  · split at h
    · nomatch h
    · split at h <;> nomatch h
  · nomatch h
  · next hpc =>
    split at h
    · nomatch h
    · next buffer rest hread => exact .unstored hpc hread (Option.map_eq_none_iff.mp h)
  · next e hpc => exact .exited hpc

/-! ## The table of files -/

/-- `files` has the streams of the first `j` files, and null pointers behind them. -/
structure Stored (files : Nat → Option Nat) (j : Nat) : Prop where
  stored : ∀ k < j, files k = some k
  rest : ∀ k, j ≤ k → files k = none

theorem stored_start : Stored (fun _ => none) 0 where
  stored := fun k hk => absurd hk (Nat.not_lt_zero k)
  rest := fun _ _ => rfl

theorem Stored.store {files : Nat → Option Nat} {i : Nat} (h : Stored files i) :
    Stored (Function.update files i (some i)) (i + 1) where
  stored := by
    intro k hk
    by_cases hki : k = i
    · rw [hki, Function.update_self]
    · rw [Function.update_of_ne hki]
      exact h.stored k (by omega)
  rest := by
    intro k hk
    rw [Function.update_of_ne (by omega)]
    exact h.rest k (by omega)

/-- There are `m` streams, and they are open. -/
structure AllOpen (d : Disk) (m : Nat) : Prop where
  length : d.streams.length = m
  isOpen : ∀ f ∈ d.streams, f.isOpen = true

section

variable {d d' : Disk} {m n : Nat} {files : Nat → Option Nat}

theorem AllOpen.fopen (h : AllOpen d m) (path : List UInt8) (append : Bool) :
    AllOpen (d.fopen path append) (m + 1) where
  length := by
    show (d.streams ++ [_]).length = m + 1
    rw [List.length_append, h.length]
    rfl
  isOpen := by
    intro f hf
    rcases List.mem_append.mp hf with hf | hf
    · exact h.isOpen f hf
    · obtain rfl := List.mem_singleton.mp hf
      rfl

theorem AllOpen.fwrite {stream : Nat} {data : List UInt8} (h : AllOpen d m)
    (hwrite : d.fwrite stream data = some d') : AllOpen d' m := by
  unfold Disk.fwrite at hwrite
  split at hwrite
  · nomatch hwrite
  · next f hf =>
    split at hwrite
    · next hopen =>
      obtain rfl := Option.some.inj hwrite
      refine ⟨?_, fun g hg => ?_⟩
      · show (d.streams.set stream _).length = m
        rw [List.length_set, h.length]
      · rcases List.mem_or_eq_of_mem_set hg with hg | rfl
        · exact h.isOpen g hg
        · exact hopen
    · nomatch hwrite

theorem forFiles_succ (files : Nat → Option Nat) (f : Disk → Nat → Option Disk) (d : Disk)
    (n : Nat) : forFiles files f d (n + 1) = (forFiles files f d n).bind fun d =>
      match files n with
      | some stream => f d stream
      | none => none := by
  unfold forFiles
  rw [List.range_succ, List.foldlM_append]
  exact bind_congr fun d => bind_pure _

/-- The rule for what every round of the loop over the files keeps. -/
theorem forFiles_inv {I : Disk → Prop} {f : Disk → Nat → Option Disk}
    (hf : ∀ d stream d', I d → f d stream = some d' → I d') (hd : I d)
    (h : forFiles files f d n = some d') : I d' := by
  induction n generalizing d' with
  | zero =>
    obtain rfl : d = d' := Option.some.inj h
    exact hd
  | succ n ih =>
    rw [forFiles_succ] at h
    obtain ⟨d₁, hrun, hlast⟩ := Option.bind_eq_some_iff.mp h
    split at hlast
    · exact hf _ _ _ (ih hrun) hlast
    · nomatch hlast

end

/-- How far the table is when `main` is at a place. -/
def TableAt (s : State) : Pc → Prop
  | .parsing => s.numFiles = 0 ∧ Stored s.files 0 ∧ AllOpen s.disk 0
  | .counting => s.numFiles = 0 ∧ Stored s.files 0 ∧ AllOpen s.disk 0
  | .opening i => s.numFiles = s.operands.length ∧ i ≤ s.operands.length ∧ Stored s.files i ∧
      AllOpen s.disk i
  | .storing i pFile => s.numFiles = s.operands.length ∧ i < s.operands.length ∧ pFile = i ∧
      Stored s.files i ∧ AllOpen s.disk (i + 1)
  | .copying => s.numFiles = s.operands.length ∧ Stored s.files s.operands.length ∧
      AllOpen s.disk s.operands.length
  | .exited _ => True

section

variable {s s' : State} {pc : Pc} {ok : Bool}

theorem tableAt_start (args : List (List UInt8)) (content : List UInt8 → Option (List UInt8))
    (input : List UInt8) : TableAt (start args content input) (start args content input).pc :=
  ⟨rfl, stored_start, rfl, fun _ hf => nomatch hf⟩

theorem TableAt.at (h : TableAt s s.pc) (hpc : s.pc = pc) : TableAt s pc := hpc ▸ h

/-- A step keeps to that, for any arguments. -/
theorem TableAt.step (h : TableAt s s.pc) (hstep : step s ok = some s') : TableAt s' s'.pc := by
  have hmove := move_of_step hstep
  cases hmove with
  | parsed pc opt => exact h.at pc
  | append pc opt =>
    show TableAt _ s.pc
    rw [pc]
    exact h.at pc
  | unknown pc opt hc => trivial
  | counted pc =>
    obtain ⟨-, hstored, hopen⟩ := h.at pc
    exact ⟨rfl, Nat.zero_le _, hstored, hopen⟩
  | @allOpen _ i pc operand =>
    obtain ⟨hnum, hi, hstored, hopen⟩ := h.at pc
    obtain rfl : i = s.operands.length := Nat.le_antisymm hi (List.getElem?_eq_none_iff.mp operand)
    exact ⟨hnum, hstored, hopen⟩
  | @opened i path pc operand =>
    -- the new stream is the `i`-th, so that is what will be stored
    obtain ⟨hnum, -, hstored, hopen⟩ := h.at pc
    exact ⟨hnum, (List.getElem?_eq_some_iff.mp operand).1, hopen.length, hstored,
      hopen.fopen path s.isAppend⟩
  | refused pc operand => trivial
  | stored pc =>
    obtain ⟨hnum, hlt, rfl, hstored, hopen⟩ := h.at pc
    exact ⟨hnum, hlt, hstored.store, hopen⟩
  | copied pc read write =>
    obtain ⟨hnum, hstored, hopen⟩ := h.at pc
    show TableAt _ s.pc
    rw [pc]
    exact ⟨hnum, hstored, forFiles_inv (fun _ _ _ => AllOpen.fwrite) hopen write⟩
  | finished pc read => trivial

end

/-! ## Copying -/

section

variable (ops : List (List UInt8)) (append : Bool) (content₀ : List UInt8 → Option (List UInt8))

/-- What a file begins with. -/
def base (path : List UInt8) : List UInt8 := if append then (content₀ path).getD [] else []

/-- The first `m` files are open, and `text k` has been written to the `k`-th. -/
structure Written (d : Disk) (m : Nat) (text : Nat → List UInt8) : Prop where
  length : d.streams.length = m
  stream : ∀ k p, k < m → ops[k]? = some p →
    d.streams[k]? = some ⟨p, append, (text k).length, true⟩
  content : ∀ k p, k < m → ops[k]? = some p →
    d.content p = some (base append content₀ p ++ text k)
  others : ∀ p, p ∉ ops.take m → d.content p = content₀ p

variable {ops append content₀} {d : Disk} {m k : Nat} {text : Nat → List UInt8} {p : List UInt8}

/-- At the end of a file, writing is appending. -/
theorem writeAt_length (bytes data : List UInt8) :
    writeAt bytes bytes.length data = bytes ++ data := by
  by_cases h : data = []
  · rw [h, writeAt_nil, List.append_nil]
  · rw [writeAt, if_neg h, List.take_length, Nat.sub_self,
      List.drop_of_length_le (Nat.le_add_right _ _)]
    simp

theorem index_unique (hops : ops.Nodup) {j : Nat} (hj : ops[j]? = some p)
    (hk : ops[k]? = some p) : j = k :=
  (List.getElem?_inj (List.getElem?_eq_some_iff.mp hj).1 hops).mp (hj.trans hk.symm)

theorem not_mem_take (hops : ops.Nodup) (hp : ops[m]? = some p) : p ∉ ops.take m := by
  intro hmem
  obtain ⟨j, hj⟩ := List.mem_iff_getElem?.mp hmem
  have hjm : j < m := by
    have hlt := (List.getElem?_eq_some_iff.mp hj).1
    rw [List.length_take] at hlt
    omega
  rw [List.getElem?_take_of_lt hjm] at hj
  have heq := index_unique hops hj hp
  omega

/-- A file that is opened next. -/
theorem Written.fopen (hops : ops.Nodup) (h : Written ops append content₀ d m fun _ => [])
    (hp : ops[m]? = some p) :
    Written ops append content₀ (d.fopen p append) (m + 1) fun _ => [] := by
  have htake : ops.take (m + 1) = ops.take m ++ [p] := by
    rw [List.take_add_one, hp]
    rfl
  constructor
  · show (d.streams ++ [_]).length = m + 1
    rw [List.length_append, h.length]
    rfl
  · intro k q hk hq
    show (d.streams ++ [_])[k]? = _
    by_cases hkm : k < m
    · rw [List.getElem?_append_left (by rw [h.length]; exact hkm)]
      exact h.stream k q hkm hq
    · obtain rfl : k = m := by omega
      obtain rfl : p = q := Option.some.inj (hp.symm.trans hq)
      rw [List.getElem?_append_right (Nat.le_of_eq h.length), h.length, Nat.sub_self]
      rfl
  · intro k q hk hq
    show (if q = p then _ else d.content q) = _
    by_cases hkm : k < m
    · have hne : q ≠ p := by
        rintro rfl
        have hkm' := index_unique hops hq hp
        omega
      rw [if_neg hne]
      exact h.content k q hkm hq
    · obtain rfl : k = m := by omega
      obtain rfl : p = q := Option.some.inj (hp.symm.trans hq)
      rw [if_pos rfl, h.others p (not_mem_take hops hp), List.append_nil]
      rfl
  · intro q hq
    rw [htake, List.mem_append, List.mem_singleton, not_or] at hq
    show (if q = p then _ else d.content q) = _
    rw [if_neg hq.2]
    exact h.others q hq.1

/-- What a write to one of the files does. -/
theorem Written.fwrite_eq (h : Written ops append content₀ d m text) (hk : k < m)
    (hp : ops[k]? = some p) (data : List UInt8) : d.fwrite k data = some
      { streams := d.streams.set k ⟨p, append, (text k).length + data.length, true⟩
        content := fun q => if q = p then some (base append content₀ p ++ (text k ++ data))
          else d.content q } := by
  have happended : (if append then (d.content p).getD [] ++ data
      else writeAt ((d.content p).getD []) (text k).length data) =
      base append content₀ p ++ (text k ++ data) := by
    rw [h.content k p hk hp, Option.getD_some, ← List.append_assoc]
    cases append with
    | true => rfl
    | false => exact writeAt_length (text k) data
  unfold Disk.fwrite
  rw [h.stream k p hk hp]
  dsimp only
  rw [if_pos rfl, ← happended]
  congr 2
  funext q
  by_cases hq : q = p
  · rw [if_pos hq, if_pos hq, hq]
  · rw [if_neg hq, if_neg hq]

/-- A text that is written to one of the files. -/
theorem Written.fwrite (hops : ops.Nodup) (h : Written ops append content₀ d m text)
    (hk : k < m) (hp : ops[k]? = some p) (data : List UInt8) :
    ∃ d', d.fwrite k data = some d' ∧
      Written ops append content₀ d' m fun j => if j = k then text k ++ data else text j := by
  refine ⟨_, h.fwrite_eq hk hp data, ?_, ?_, ?_, ?_⟩
  · show (d.streams.set k _).length = m
    rw [List.length_set, h.length]
  · intro j q hj hq
    show (d.streams.set k _)[j]? = _
    by_cases hjk : j = k
    · subst hjk
      obtain rfl : p = q := Option.some.inj (hp.symm.trans hq)
      rw [List.getElem?_set_self (by rw [h.length]; exact hj), if_pos rfl, List.length_append]
    · rw [List.getElem?_set_ne (Ne.symm hjk), if_neg hjk]
      exact h.stream j q hj hq
  · intro j q hj hq
    show (if q = p then _ else d.content q) = _
    by_cases hjk : j = k
    · subst hjk
      obtain rfl : p = q := Option.some.inj (hp.symm.trans hq)
      rw [if_pos rfl, if_pos rfl]
    · have hne : q ≠ p := by
        rintro rfl
        exact hjk (index_unique hops hq hp)
      rw [if_neg hne, if_neg hjk]
      exact h.content j q hj hq
  · intro q hq
    have hne : q ≠ p := by
      rintro rfl
      refine hq (List.mem_iff_getElem?.mpr ⟨k, ?_⟩)
      rw [List.getElem?_take_of_lt hk, hp]
    show (if q = p then _ else d.content q) = _
    rw [if_neg hne]
    exact h.others q hq

theorem Written.congr {text' : Nat → List UInt8} (h : Written ops append content₀ d m text)
    (htext : ∀ k < m, text k = text' k) : Written ops append content₀ d m text' where
  length := h.length
  stream := by
    intro k p hk hp
    rw [← htext k hk]
    exact h.stream k p hk hp
  content := by
    intro k p hk hp
    rw [← htext k hk]
    exact h.content k p hk hp
  others := h.others

/-- A text that is written to all of them. -/
theorem Written.forFiles (hops : ops.Nodup) {w : List UInt8} {files : Nat → Option Nat}
    (h : Written ops append content₀ d ops.length fun _ => w)
    (hfiles : ∀ k < ops.length, files k = some k) (data : List UInt8) :
    ∃ d', forFiles files (·.fwrite · data) d ops.length = some d' ∧
      Written ops append content₀ d' ops.length fun _ => w ++ data := by
  -- after `n` rounds the first `n` files have got the text
  have hfirst : ∀ n ≤ ops.length, ∃ d', Tee.forFiles files (·.fwrite · data) d n = some d' ∧
      Written ops append content₀ d' ops.length fun k => if k < n then w ++ data else w := by
    intro n
    induction n with
    | zero => exact fun _ => ⟨d, rfl, h⟩
    | succ n ih =>
      intro hn
      obtain ⟨d₁, hrun, hd₁⟩ := ih (Nat.le_of_succ_le hn)
      obtain ⟨d₂, hwrite, hd₂⟩ := hd₁.fwrite hops hn (List.getElem?_eq_getElem hn) data
      refine ⟨d₂, ?_, hd₂.congr fun k _ => ?_⟩
      · rw [forFiles_succ, hrun, hfiles n hn]
        exact hwrite
      · by_cases hkn : k = n
        · rw [if_pos hkn, if_neg (Nat.lt_irrefl n), if_pos (by omega)]
        · rw [if_neg hkn]
          exact if_congr (by omega) rfl rfl
  obtain ⟨d', hrun, hd'⟩ := hfirst ops.length (Nat.le_refl _)
  exact ⟨d', hrun, hd'.congr fun k hk => if_pos hk⟩

end

section

variable (ops : List (List UInt8)) (append : Bool) (content₀ : List UInt8 → Option (List UInt8))
  (input : List UInt8)

/-- A run that has met no error is at a place: nothing is read before all the files are open, and
    what has been read in the pieces `done` has been written to all of them. -/
def RunningAt (s : State) : Pc → Prop
  | .parsing => (∀ c ∈ s.options, c = 97) ∧ (s.isAppend || !s.options.isEmpty) = append ∧
      Written ops append content₀ s.disk 0 (fun _ => []) ∧ s.stdin = input ∧ s.stdout = []
  | .counting => s.isAppend = append ∧
      Written ops append content₀ s.disk 0 (fun _ => []) ∧ s.stdin = input ∧ s.stdout = []
  | .opening i => s.isAppend = append ∧
      Written ops append content₀ s.disk i (fun _ => []) ∧ s.stdin = input ∧ s.stdout = []
  | .storing i _ => s.isAppend = append ∧
      Written ops append content₀ s.disk (i + 1) (fun _ => []) ∧ s.stdin = input ∧ s.stdout = []
  | .copying => ∃ done, pieces BUFFER_SIZE input = done ++ pieces BUFFER_SIZE s.stdin ∧
      s.stdout = done.flatMap cstring ∧
      Written ops append content₀ s.disk ops.length fun _ => done.flatMap cstring
  | .exited e => e = .success ∧ Stored s.files ops.length ∧
      s.stdout = (pieces BUFFER_SIZE input).flatMap cstring ∧
      Written ops append content₀ s.disk ops.length fun _ =>
        (pieces BUFFER_SIZE input).flatMap cstring

/-- The state of such a run. -/
structure Running (s : State) : Prop where
  operands : s.operands = ops
  table : TableAt s s.pc
  place : RunningAt ops append content₀ input s s.pc

variable {ops append content₀ input} {s s' : State}

theorem Running.at {pc : Pc} (h : Running ops append content₀ input s) (hpc : s.pc = pc) :
    RunningAt ops append content₀ input s pc := hpc ▸ h.place

/-- What is written to all the files in the copying loop. -/
theorem Running.write (hops : ops.Nodup) (h : Running ops append content₀ input s)
    (hpc : s.pc = .copying) {w : List UInt8}
    (hwritten : Written ops append content₀ s.disk ops.length fun _ => w) (data : List UInt8) :
    ∃ disk, forFiles s.files (·.fwrite · data) s.disk s.numFiles = some disk ∧
      Written ops append content₀ disk ops.length fun _ => w ++ data := by
  obtain ⟨hnum, hstored, -⟩ := h.table.at hpc
  rw [h.operands] at hnum hstored
  rw [hnum]
  exact hwritten.forFiles hops hstored.stored data

/-- A step keeps to that. -/
theorem Running.step (hops : ops.Nodup) (h : Running ops append content₀ input s)
    (hstep : step s true = some s') : Running ops append content₀ input s' := by
  have htable := h.table.step hstep
  have hmove := move_of_step hstep
  cases hmove with
  | parsed pc opt =>
    obtain ⟨-, happend, hrest⟩ := h.at pc
    refine ⟨h.operands, htable, ?_, hrest⟩
    simpa [opt] using happend
  | append pc opt =>
    obtain ⟨hopt, happend, hrest⟩ := h.at pc
    refine ⟨h.operands, htable, ?_⟩
    show RunningAt _ _ _ _ _ s.pc
    rw [pc]
    refine ⟨fun c hc => hopt c (by rw [opt]; exact List.mem_cons_of_mem _ hc), ?_, hrest⟩
    simpa [opt] using happend
  | unknown pc opt hc =>
    obtain ⟨hopt, -⟩ := h.at pc
    exact absurd (hopt _ (by rw [opt]; exact List.mem_cons_self)) hc
  | counted pc => exact ⟨h.operands, htable, h.at pc⟩
  | @allOpen _ i pc operand =>
    obtain ⟨-, hwritten, hstdin, hstdout⟩ := h.at pc
    obtain ⟨-, hi, -⟩ := h.table.at pc
    rw [h.operands] at operand hi
    obtain rfl : i = ops.length := Nat.le_antisymm hi (List.getElem?_eq_none_iff.mp operand)
    exact ⟨h.operands, htable, [], by rw [hstdin]; rfl, hstdout, hwritten⟩
  | @opened i path pc operand =>
    obtain ⟨happend, hwritten, hio⟩ := h.at pc
    rw [h.operands] at operand
    refine ⟨h.operands, htable, happend, ?_, hio⟩
    show Written _ _ _ (s.disk.fopen path s.isAppend) _ _
    rw [happend]
    exact hwritten.fopen hops operand
  | stored pc => exact ⟨h.operands, htable, h.at pc⟩
  | @copied _ buffer rest disk pc read write =>
    obtain ⟨done, hdone, hstdout, hwritten⟩ := h.at pc
    -- one more piece is done, and its string is behind what the outputs had
    obtain ⟨disk', hrun, hdisk⟩ := h.write hops pc hwritten (cstring buffer)
    obtain rfl : disk' = disk := Option.some.inj (hrun.symm.trans write)
    refine ⟨h.operands, htable, ?_⟩
    show RunningAt _ _ _ _ _ s.pc
    rw [pc]
    have hflat : (done ++ [buffer]).flatMap cstring = done.flatMap cstring ++ cstring buffer := by
      rw [List.flatMap_append, List.flatMap_singleton]
    refine ⟨done ++ [buffer], ?_, ?_, ?_⟩
    · rw [hdone, pieces_of_fgets (by decide) read, List.append_assoc]
      rfl
    · rw [hflat, ← hstdout]
    · rw [hflat]
      exact hdisk
  | finished pc read =>
    obtain ⟨done, hdone, hstdout, hwritten⟩ := h.at pc
    rw [eq_nil_of_fgets read, pieces_nil, List.append_nil] at hdone
    rw [← hdone] at hstdout hwritten
    obtain ⟨-, hstored, -⟩ := h.table.at pc
    rw [h.operands] at hstored
    exact ⟨h.operands, htable, rfl, hstored, hstdout, hwritten⟩

/-- There are fewer steps to come. -/
theorem Running.left_lt (h : Running ops append content₀ input s) (hstep : Tee.step s true = some s') :
    s'.left < s.left := by
  have hmove := move_of_step hstep
  cases hmove with
  | parsed pc opt => simp [State.left, pc, opt]
  | append pc opt => simp [State.left, pc, opt]
  | unknown pc opt hc => simp [State.left, pc]
  | counted pc => simp [State.left, pc]
  | allOpen pc operand =>
    simp only [State.left, pc]
    omega
  | opened pc operand => simp [State.left, pc]
  | stored pc =>
    obtain ⟨-, hlt, -⟩ := h.table.at pc
    simp only [State.left, pc]
    omega
  | copied pc read write =>
    have hlt := length_of_fgets (by decide) read
    simp only [State.left, pc]
    omega
  | finished pc read => simp [State.left, pc]

/-- It stops only at the end. -/
theorem Running.exited (hops : ops.Nodup) (h : Running ops append content₀ input s)
    (hstop : Tee.step s true = none) :
    s.pc = .exited .success := by
  cases stuck_of_step hstop with
  | exited pc =>
    obtain ⟨rfl, -⟩ := h.at pc
    exact pc
  | unstored pc read write =>
    obtain ⟨done, -, -, hwritten⟩ := h.at pc
    obtain ⟨disk, hrun, -⟩ := h.write hops pc hwritten _
    nomatch hrun.symm.trans write

end

section

variable (args : List (List UInt8)) (content : List UInt8 → Option (List UInt8))
  (input : List UInt8)

theorem running_start (hopt : ∀ c ∈ (getopt args).1, c = 97) :
    Running (getopt args).2 (!(getopt args).1.isEmpty) content input (start args content input) where
  operands := rfl
  table := tableAt_start args content input
  place := by
    refine ⟨hopt, Bool.false_or _, ?_, rfl, rfl⟩
    exact ⟨rfl, fun _ _ h => absurd h (Nat.not_lt_zero _), fun _ _ h => absurd h (Nat.not_lt_zero _),
      fun _ _ => rfl⟩

/-- `tee` ends, and all its outputs have got the strings of all the pieces. -/
theorem tee_ends (hopt : ∀ c ∈ (getopt args).1, c = 97) (hops : (getopt args).2.Nodup) :
    ∃ s, tee (start args content input) = some s ∧ s.pc = .exited .success ∧
      Stored s.files (getopt args).2.length ∧
      s.stdout = (pieces BUFFER_SIZE input).flatMap cstring ∧
      ∀ p ∈ (getopt args).2, s.disk.content p =
        some (base (!(getopt args).1.isEmpty) content p ++
          (pieces BUFFER_SIZE input).flatMap cstring) := by
  have hstep : ∀ s s', Running (getopt args).2 (!(getopt args).1.isEmpty) content input s →
      step s true = some s' →
      Running (getopt args).2 (!(getopt args).1.isEmpty) content input s' ∧ s'.left < s.left :=
    fun s s' h hs => ⟨h.step hops hs, h.left_lt hs⟩
  obtain ⟨s, hrun, hs, hstop⟩ :=
    loopN_toEnd_total hstep (running_start args content input hopt) (Nat.lt_succ_self _)
  have hpc := hs.exited hops hstop
  obtain ⟨-, hstored, hstdout, hwritten⟩ := hs.at hpc
  refine ⟨s, hrun, hpc, hstored, hstdout, fun p hp => ?_⟩
  obtain ⟨k, hk⟩ := List.mem_iff_getElem?.mp hp
  exact hwritten.content k p (List.getElem?_eq_some_iff.mp hk).1 hk

/-- **Every byte is copied**, to standard output and behind what the files are to begin with, if
    and only if there is no zero among them.  Nothing is stored behind the end of `files`. -/
theorem tee_copies_iff (hopt : ∀ c ∈ (getopt args).1, c = 97) (hops : (getopt args).2.Nodup)
    (hlimit : (getopt args).2.length ≤ FILE_LIMIT) :
    ∃ s, tee (start args content input) = some s ∧ s.pc = .exited .success ∧
      (∀ k, FILE_LIMIT ≤ k → s.files k = none) ∧
      ((s.stdout = input ∧ ∀ p ∈ (getopt args).2, s.disk.content p =
          some ((if (getopt args).1 = [] then [] else (content p).getD []) ++ input)) ↔
        0 ∉ input) := by
  obtain ⟨s, hrun, hpc, hstored, hstdout, hfiles⟩ := tee_ends args content input hopt hops
  have hflat := flatten_pieces (by decide : 1 < BUFFER_SIZE) input
  have hall := flatMap_cstring_eq_flatten (pieces BUFFER_SIZE input)
  rw [hflat] at hall
  refine ⟨s, hrun, hpc, fun k hk => hstored.rest k (Nat.le_trans hlimit hk), ?_⟩
  -- the input is its pieces, and their strings are all of it iff no zero is there
  rw [← hall, hstdout]
  constructor
  · exact fun h => h.1
  · intro h
    refine ⟨h, fun p hp => ?_⟩
    rw [hfiles p hp, h]
    unfold base
    cases (getopt args).1 <;> rfl

end

/-- The file `f` has `x` in it, and there are no others. -/
def fileF : List UInt8 → Option (List UInt8) := fun p => if p = [102] then some [120] else none

/-- `tee -a f g` with the input `ab\n`. -/
theorem tee_copies_ab :
    (tee (start [[45, 97], [102], [103]] fileF [97, 98, 10])).map
      (fun s => (s.stdout, s.disk.content [102], s.disk.content [103])) =
        some ([97, 98, 10], some [120, 97, 98, 10], some [97, 98, 10]) ∧
    ∃ s, tee (start [[45, 97], [102], [103]] fileF [97, 98, 10]) = some s ∧
      s.pc = .exited .success ∧ (∀ k, FILE_LIMIT ≤ k → s.files k = none) ∧
      ((s.stdout = [97, 98, 10] ∧ ∀ p ∈ (getopt [[45, 97], [102], [103]]).2, s.disk.content p =
          some ((if (getopt [[45, 97], [102], [103]]).1 = [] then [] else (fileF p).getD []) ++
            [97, 98, 10])) ↔ 0 ∉ ([97, 98, 10] : List UInt8)) :=
  ⟨by decide +kernel, tee_copies_iff _ _ _ (fun _ => List.mem_singleton.mp) (by decide) (by decide)⟩

/-- **A zero byte** takes the rest of its line with it: of `a`, zero, `b`, newline, `c` only `ac`
    is copied. -/
theorem tee_loses_bytes :
    (tee (start [[102]] fileF [97, 0, 98, 10, 99])).map
      (fun s => (s.pc, s.stdout, s.disk.content [102])) =
        some (.exited .success, [97, 99], some [97, 99]) := by
  decide +kernel

/-! ## The signal handler -/

/-- What the handler relies on: `num_files` streams are stored in the array, and they are open. -/
structure TableSafe (s : State) : Prop where
  limit : s.numFiles ≤ FILE_LIMIT
  isOpen : ∀ k < s.numFiles, ∃ stream f, s.files k = some stream ∧
    s.disk.streams[stream]? = some f ∧ f.isOpen = true

/-- The loop over the arguments has stored all the files. -/
def AllStored (s : State) : Prop := s.pc = .opening s.operands.length ∨ s.pc = .copying

section

variable {d d' : Disk} {j m n : Nat} {s : State} {files : Nat → Option Nat}

theorem Stored.lt_of_eq_some (h : Stored files j) {k stream : Nat}
    (hk : files k = some stream) : k < j :=
  Nat.lt_of_not_le fun hjk => nomatch hk.symm.trans (h.rest k hjk)

theorem tableSafe_iff_le (hstored : Stored s.files j) (hopen : AllOpen s.disk m) (hjm : j ≤ m) :
    TableSafe s ↔ s.numFiles ≤ j ∧ s.numFiles ≤ FILE_LIMIT := by
  constructor
  · intro h
    refine ⟨Nat.le_of_not_lt fun hlt => ?_, h.limit⟩
    obtain ⟨stream, _, hstream, -⟩ := h.isOpen j hlt
    exact Nat.lt_irrefl j (hstored.lt_of_eq_some hstream)
  · rintro ⟨hle, hlimit⟩
    refine ⟨hlimit, fun k hk => ?_⟩
    have hkm : k < s.disk.streams.length := by
      rw [hopen.length]
      omega
    exact ⟨k, s.disk.streams[k], hstored.stored k (by omega), List.getElem?_eq_getElem hkm,
      hopen.isOpen _ (List.getElem_mem hkm)⟩

/-- Streams that are stored and open are closed one after the other. -/
theorem forFiles_fclose (hfiles : ∀ k < n, files k = some k) (hopen : AllOpen d m)
    (hnm : n ≤ m) : ∃ d', forFiles files Disk.fclose d n = some d' ∧
      ∀ k, n ≤ k → d'.streams[k]? = d.streams[k]? := by
  induction n with
  | zero => exact ⟨d, rfl, fun _ _ => rfl⟩
  | succ n ih =>
    obtain ⟨d₁, hrun, hrest⟩ := ih (fun k hk => hfiles k (by omega)) (by omega)
    have hlt : n < d.streams.length := by
      rw [hopen.length]
      exact hnm
    refine ⟨{ d₁ with streams := d₁.streams.set n { d.streams[n] with isOpen := false } }, ?_, ?_⟩
    · rw [forFiles_succ, hrun, hfiles n (Nat.lt_succ_self n)]
      show d₁.fclose n = _
      unfold Disk.fclose
      rw [hrest n (Nat.le_refl n), List.getElem?_eq_getElem hlt]
      exact if_pos (hopen.isOpen _ (List.getElem_mem hlt))
    · intro k hk
      show (d₁.streams.set n _)[k]? = _
      rw [List.getElem?_set_ne (by omega)]
      exact hrest k (by omega)

/-- The loop meets no null pointer. -/
theorem stored_of_forFiles {f : Disk → Nat → Option Disk} (h : forFiles files f d n = some d') :
    ∀ k < n, ∃ stream, files k = some stream := by
  induction n generalizing d' with
  | zero => exact fun k hk => absurd hk (Nat.not_lt_zero k)
  | succ n ih =>
    rw [forFiles_succ] at h
    obtain ⟨d₁, hrun, hlast⟩ := Option.bind_eq_some_iff.mp h
    intro k hk
    by_cases hkn : k = n
    · split at hlast
      · next stream hstream => exact ⟨stream, hkn ▸ hstream⟩
      · nomatch hlast
    · exact ih hrun k (by omega)

theorem handleSigint_isSome_iff (hstored : Stored s.files j) (hopen : AllOpen s.disk m)
    (hjm : j ≤ m) : (handleSigint s).isSome ↔ s.numFiles ≤ j := by
  constructor
  · intro h
    obtain ⟨d, hd⟩ := Option.isSome_iff_exists.mp h
    refine Nat.le_of_not_lt fun hlt => ?_
    obtain ⟨stream, hstream⟩ := stored_of_forFiles hd j hlt
    exact Nat.lt_irrefl j (hstored.lt_of_eq_some hstream)
  · intro hle
    obtain ⟨d, hd, -⟩ := forFiles_fclose (fun k hk => hstored.stored k (Nat.lt_of_lt_of_le hk hle))
      hopen (Nat.le_trans hle hjm)
    exact Option.isSome_iff_exists.mpr ⟨d, hd⟩

/-- How many files are stored, and when these are all. -/
theorem TableAt.exists_stored (h : TableAt s s.pc) (hmain : ∀ e, s.pc ≠ .exited e) :
    ∃ j m, Stored s.files j ∧ AllOpen s.disk m ∧ j ≤ m ∧
      (s.numFiles ≤ j ↔ s.numFiles = 0 ∨ AllStored s) := by
  unfold AllStored
  cases hpc : s.pc with
  | parsing =>
    obtain ⟨hnum, hstored, hopen⟩ := h.at hpc
    exact ⟨0, 0, hstored, hopen, Nat.le_refl 0, by simp [hnum]⟩
  | counting =>
    obtain ⟨hnum, hstored, hopen⟩ := h.at hpc
    exact ⟨0, 0, hstored, hopen, Nat.le_refl 0, by simp [hnum]⟩
  | opening i =>
    -- `i` of `num_files` files are stored
    obtain ⟨hnum, hi, hstored, hopen⟩ := h.at hpc
    refine ⟨i, i, hstored, hopen, Nat.le_refl i, ?_⟩
    rw [hnum, Pc.opening.injEq]
    simp only [reduceCtorEq, or_false]
    omega
  | storing i pFile =>
    -- one more is open, but it is not stored yet
    obtain ⟨hnum, hi, -, hstored, hopen⟩ := h.at hpc
    refine ⟨i, i + 1, hstored, hopen, Nat.le_succ i, ?_⟩
    rw [hnum]
    simp only [reduceCtorEq, or_false]
    omega
  | copying =>
    obtain ⟨hnum, hstored, hopen⟩ := h.at hpc
    exact ⟨_, _, hstored, hopen, Nat.le_refl _, by simp [hnum]⟩
  | exited e => exact absurd hpc (hmain e)

end

/-- **The handler is safe**, anywhere in `main`, if and only if there is nothing to close yet, or all
    the files are stored and there are at most `FILE_LIMIT` of them.  Where it is not, it passes
    `fclose` a null pointer or goes by what is behind the end of `files`. -/
theorem tableSafe_iff {args : List (List UInt8)} {content : List UInt8 → Option (List UInt8)}
    {input : List UInt8} {s : State}
    (h : Reach step (fun _ _ => True) (start args content input) s)
    (hmain : ∀ e, s.pc ≠ .exited e) :
    (TableSafe s ↔ s.numFiles = 0 ∨ (AllStored s ∧ s.numFiles ≤ FILE_LIMIT)) ∧
      (TableSafe s ↔ (handleSigint s).isSome ∧ s.numFiles ≤ FILE_LIMIT) := by
  have htable : TableAt s s.pc :=
    h.inv (I := fun s => TableAt s s.pc) (tableAt_start args content input)
      fun _ _ _ ht _ hstep => ht.step hstep
  obtain ⟨j, m, hstored, hopen, hjm, hiff⟩ := htable.exists_stored hmain
  rw [tableSafe_iff_le hstored hopen hjm, handleSigint_isSome_iff hstored hopen hjm, hiff]
  refine ⟨⟨?_, ?_⟩, Iff.rfl⟩
  · rintro ⟨hnone | hall, hlimit⟩
    · exact Or.inl hnone
    · exact Or.inr ⟨hall, hlimit⟩
  · rintro (hnone | ⟨hall, hlimit⟩)
    · exact ⟨Or.inl hnone, by rw [hnone]; exact Nat.zero_le _⟩
    · exact ⟨Or.inr hall, hlimit⟩

/-- `tee f`, when the file has been stored. -/
theorem tableSafe_stored : ∃ s, Reach step (fun _ _ => True) (start [[102]] fileF []) s ∧
    s.numFiles = 1 ∧ TableSafe s ∧ (handleSigint s).isSome := by
  have hrun : (runList step (fun _ _ => True) (start [[102]] fileF []) [true, true, true, true]).map
      (fun s => (s.pc, s.operands.length, s.numFiles)) = some (.opening 1, 1, 1) := by
    decide +kernel
  obtain ⟨s, hs, hseen⟩ := Reach.of_observed hrun
  obtain ⟨hpc, hlength, hnum⟩ : s.pc = .opening 1 ∧ s.operands.length = 1 ∧ s.numFiles = 1 := by
    simpa using hseen
  obtain ⟨hstored, hhandler⟩ := tableSafe_iff hs (by rw [hpc]; exact fun _ he => nomatch he)
  have hsafe := hstored.mpr (Or.inr ⟨Or.inl (by rw [hpc, hlength]), by rw [hnum]; decide⟩)
  exact ⟨s, hs, hnum, hsafe, (hhandler.mp hsafe).1⟩

/-- `tee f`, when `num_files` has been set and the file is not yet open: `files[0]` is a null
    pointer.  And with 21 files, all of them stored, `files[20]` is not in the array. -/
theorem handler_closes_null :
    (∃ s, Reach step (fun _ _ => True) (start [[102]] fileF []) s ∧ s.pc = .opening 0 ∧
      ¬ TableSafe s ∧ handleSigint s = none) ∧
    ∃ s, Reach step (fun _ _ => True) (start (List.replicate 21 [102]) fileF []) s ∧
      AllStored s ∧ FILE_LIMIT < s.numFiles ∧ ¬ TableSafe s := by
  constructor
  · have hrun : (runList step (fun _ _ => True) (start [[102]] fileF []) [true, true]).map
        (fun s => (s.pc, s.numFiles, s.files 0, (handleSigint s).isNone)) =
          some (.opening 0, 1, none, true) := by
      decide +kernel
    obtain ⟨s, hs, hseen⟩ := Reach.of_observed hrun
    obtain ⟨hpc, hnum, hnull, hnone⟩ : s.pc = .opening 0 ∧ s.numFiles = 1 ∧
        s.files 0 = none ∧ handleSigint s = none := by
      simpa using hseen
    refine ⟨s, hs, hpc, fun hsafe => ?_, hnone⟩
    obtain ⟨stream, _, hstream, -⟩ := hsafe.isOpen 0 (by omega)
    nomatch hnull.symm.trans hstream
  · have hrun : (runList step (fun _ _ => True) (start (List.replicate 21 [102]) fileF [])
        (List.replicate 45 true)).map (fun s => (s.pc, s.numFiles)) = some (.copying, 21) := by
      decide +kernel
    obtain ⟨s, hs, hseen⟩ := Reach.of_observed hrun
    obtain ⟨hpc, hnum⟩ : s.pc = .copying ∧ s.numFiles = 21 := by simpa using hseen
    have hmany : FILE_LIMIT < s.numFiles := by
      rw [hnum]
      decide
    exact ⟨s, hs, Or.inr hpc, hmany, fun hsafe => Nat.not_le_of_lt hmany hsafe.limit⟩

end LinuxInterface.Tee
