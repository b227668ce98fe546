/-
  A directory of processes, as `/proc` is.

  The directory of a process is called by its number, which is an `int`, and everything else has a
  name that does not begin with a digit; that is how programs tell them apart.  Something is to be found in every
  directory (`file`), or has gone or cannot be opened.  What a loop over the entries finds in this
  way are the processes that could be opened (`found_of_opened`, `skipped_of_not_opened`).
-/
import LinuxInterface.Base.Scanf

namespace LinuxInterface

/-- The number of a process. -/
abbrev Pid := Fin 2147483648

/-- `"Name:"`, what the first line of a status file begins with. -/
def nameKey : List UInt8 := ascii ['N', 'a', 'm', 'e', ':']

/-- An entry, and what a program finds that opens something there. -/
inductive ProcEntry (φ : Type) where
  | process (pid : Pid) (file : Option φ)
  | other (name : List UInt8) (file : Option φ) (notDigit : isdigit (name.headD 0) = false)

namespace ProcEntry

variable {φ : Type}

/-- `d_name`. -/
def dName : ProcEntry φ → List UInt8
  | process pid _ => decimal pid.val
  | other name _ _ => name

def file : ProcEntry φ → Option φ
  | process _ file => file
  | other _ file _ => file

/-- The process, and what was found, if it could be opened. -/
def opened : ProcEntry φ → Option (Nat × φ)
  | process pid file => file.map fun x => (pid.val, x)
  | other _ _ _ => none

variable {ent : ProcEntry φ}

/-- A process that could be opened is found by its name … -/
theorem found_of_opened {o : Nat × φ} (h : ent.opened = some o) :
    isdigit (ent.dName.headD 0) = true ∧ ent.dName = decimal o.1 ∧ ent.file = some o.2 ∧
      o.1 < 2 ^ 31 := by
  cases ent with
  | other name file notDigit => nomatch h
  | process pid file =>
    obtain ⟨x, rfl, rfl⟩ := Option.map_eq_some_iff.mp h
    exact ⟨isdigit_headD_decimal pid, rfl, rfl, pid.isLt⟩

/-- … and everything else is passed over. -/
theorem skipped_of_not_opened (h : ent.opened = none) :
    isdigit (ent.dName.headD 0) = false ∨ ent.file = none := by
  cases ent with
  | other name file notDigit => exact .inl notDigit
  | process pid file => exact .inr (Option.map_eq_none_iff.mp h)

end ProcEntry

end LinuxInterface
