/-
  `my_setenv` and `my_unsetenv` (ch06/3_env.c), as they are written.

  1. **Memory** — a `char *` is an address; `str` gives the string at each address and never
     changes except where `malloc` has just handed out a fresh one.  `cells` is the array
     `environ` points to, a `NULL` (`none`) somewhere in it; what stands behind the first `NULL`
     is still memory but no longer environment.

  2. **The C library** — `getenv` and `putenv` are written down as they are documented: the first
     entry that starts with `k=` counts, and `putenv` puts the pointer it got in the place of that
     entry or behind all of them.  `malloc` and `putenv` may fail, which is an argument.

  3. **The in-place loop** — `my_unsetenv` walks the array with two pointers, `env` and `dest`.
     They are indices into `cells` here; `none` as the result is a read outside the array, or of a
     byte behind the terminator of an entry.
-/
import LinuxInterface.Base.CString
import LinuxInterface.Base.Loop
import Mathlib.Logic.Function.Basic

namespace LinuxInterface.Env

open LinuxInterface

/-- The character `=`. -/
def EQUALS : UInt8 := 61

/-- The character `_`. -/
def UNDERSCORE : UInt8 := 95

/-- The strings of the process and its environment array. -/
structure Proc where
  str : Nat → CStr
  /-- From this address on nothing has been handed out. -/
  top : Nat
  cells : List (Option Nat)

/-- The pointers of an array up to its first `NULL`. -/
def untilNull : List (Option Nat) → List Nat
  | some p :: cs => p :: untilNull cs
  | _ => []

/-- The environment: the strings `environ` leads to, in order. -/
def Proc.entries (e : Proc) : List Nat := untilNull e.cells

/-! ## The C library -/

/-- The string starts with `k=`. -/
def startsWith (k : List UInt8) (s : CStr) : Bool := (k ++ [EQUALS]).isPrefixOf s.bytes

/-- `getenv(k)`: the text after `k=` of the first entry that starts so. -/
def getenv (e : Proc) (k : List UInt8) : Option (List UInt8) :=
  (e.entries.find? fun p => startsWith k (e.str p)).map fun p =>
    (e.str p).bytes.drop (k.length + 1)

/-- The new pointer in the place of the first entry for which `hit` holds; where the `NULL` is met
    first, before it. -/
def putCells (hit : Nat → Bool) (p : Nat) : List (Option Nat) → List (Option Nat)
  | some q :: cs => if hit q then some p :: cs else some q :: putCells hit p cs
  | _ => [some p, none]

/-- `putenv(p)`, where the string at `p` is a definition `name=value`. -/
def putenv (e : Proc) (p : Nat) : Proc :=
  let name := (e.str p).bytes.takeWhile (· ≠ EQUALS)
  { e with cells := putCells (fun q => startsWith name (e.str q)) p e.cells }

/-- `malloc`, when it succeeds: an address that was not in use. -/
def malloc (e : Proc) : Proc × Nat := ({ e with top := e.top + 1 }, e.top)

/-- Write the string `s` at `p`. -/
def Proc.write (e : Proc) (p : Nat) (s : CStr) : Proc :=
  { e with str := Function.update e.str p s }

/-- `name=value`. -/
def definition (name value : CStr) : CStr where
  bytes := name.bytes ++ EQUALS :: value.bytes
  noNul := by
    intro h
    rcases List.mem_append.mp h with h | h
    · exact name.noNul h
    · rcases List.mem_cons.mp h with h | h
      · exact absurd h (by decide)
      · exact value.noNul h

/-! ## The program -/

/-- The loop of `is_valid_env_name`, from `name + i` on. -/
def validFrom : List UInt8 → Bool
  | [] => true
  | c :: cs => if !(isalnum c || c == UNDERSCORE) then false else validFrom cs

/-- `is_valid_env_name`. -/
def isValidEnvName (name : Option CStr) : Bool :=
  match name with
  | none => false
  | some s =>
    match s.bytes with
    | [] => false
    | c :: cs => if !(isalpha c || c == UNDERSCORE) then false else validFrom cs

/-- `my_setenv`, with what `malloc` and `putenv` answer. -/
def mySetenv (mallocOk putenvOk : Bool) (e : Proc) (name value : Option CStr) (overwrite : Int) :
    Int × Proc :=
  match name, value with
  | some n, some v =>
    if !isValidEnvName name then (-1, e)
    else
      let currentValue := getenv e n.bytes
      if currentValue.isSome ∧ overwrite = 0 then (0, e)
      else
        let len := n.strlen + v.strlen + 2
        if mallocOk then
          let (e, envString) := malloc e
          let e := e.write envString (snprintf len (definition n v))
          if putenvOk then (0, putenv e envString) else (-1, e)
        else (-1, e)
  | _, _ => (-1, e)

/-- The test of `my_unsetenv`: the entry at `p` defines `name`.  The byte behind the name is fetched
    only when `strncmp` has found no difference; `none` is a read behind a terminator. -/
def matchesName (e : Proc) (name : CStr) (p : Nat) : Option Bool :=
  (strncmpFrom (e.str p) name name.strlen 0).bind fun diff =>
    if diff = 0 then ((e.str p).charAt name.strlen).map fun c => c == EQUALS else some false

/-- The loop of `my_unsetenv`, on the array, `env` and `dest`. -/
def unsetBody (e : Proc) (name : CStr) : List (Option Nat) × Nat × Nat →
    Turn (List (Option Nat) × Nat × Nat) (Option (List (Option Nat))) := fun (cells, env, dest) =>
  match cells[env]? with
  | some (some p) =>
    match matchesName e name p with
    | some true => .again (cells, env + 1, dest)
    | some false => .again (cells.set dest (some p), env + 1, dest + 1)
    -- a byte behind an entry's terminator has been read
    | none => .leave none
  | some none => .leave (some (cells.set dest none))
  -- `env` has run out of the array
  | none => .leave none

/-- `my_unsetenv`. -/
def myUnsetenv (e : Proc) (name : Option CStr) : Option (Int × Proc) :=
  match name with
  | none => some (-1, e)
  | some n =>
    if !isValidEnvName name then some (-1, e)
    else
      (loopN (unsetBody e n) (e.cells.length + 1) (e.cells, 0, 0)).join.map fun cells =>
        (0, { e with cells := cells })

/-! ## Runs -/

/-- A call with strings that are not `NULL`. -/
inductive Call where
  | setenv (name value : CStr) (overwrite : Int)
  | unsetenv (name : CStr)

/-- One call, the C library having memory. -/
def call (e : Proc) : Call → Option (Int × Proc)
  | .setenv name value overwrite => some (mySetenv true true e (some name) (some value) overwrite)
  | .unsetenv name => myUnsetenv e (some name)

/-- Calls one after the other: their results, and the process after them. -/
def run (e : Proc) : List Call → Option (List Int × Proc)
  | [] => some ([], e)
  | c :: cs => (call e c).bind fun (r, e) => (run e cs).map fun (rs, e) => (r :: rs, e)

end LinuxInterface.Env
