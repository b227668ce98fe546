/-
  ch09/4_set.c: a set-user-ID program suspends, resumes and then drops its privileges.

  1. **The program** — `main` with what it prints and the user IDs of the process behind each of
     its three calls.

  2. **The drop is permanent** — started with real ID X, which is not 0, and effective and saved ID
     Y it gets through, and from where it ends no call leads to another ID (`main_drops`).
-/
import LinuxInterface.Base.Credentials
import LinuxInterface.Base.Scanf

namespace LinuxInterface.SetUid

open LinuxInterface

/-! ## The program -/

/-- What a run leaves: its status, the IDs of the process behind each call that was made and not
    refused, and the lines on `stdout`. -/
structure Run where
  status : Nat
  ids : List Creds
  lines : List (List UInt8)
deriving DecidableEq

/-- A `uid_t` as `%d` prints it. -/
def printUid (uid : Nat) : List UInt8 := decimalInt (Int.bmod uid (2 ^ 32))

/-- `printf("<when>: RUID=%d, EUID=%d, SUID=%d\n", ruid, euid, suid)`. -/
def line (moment : List Char) (ruid euid suid : Nat) : List UInt8 :=
  ascii moment ++ ascii ": RUID=".toList ++ printUid ruid ++ ascii ", EUID=".toList ++
    printUid euid ++ ascii ", SUID=".toList ++ printUid suid ++ ascii ['\n']

def before (c : Creds) : List UInt8 := line "Before suspension".toList c.ruid c.euid c.suid

/-- The next two lines print the IDs that were read at the start but for the effective one. -/
def afterSuspension (c₀ c₁ : Creds) : List UInt8 :=
  line "After suspension".toList c₀.ruid c₁.euid c₀.suid

def afterResuming (c₀ c₂ : Creds) : List UInt8 :=
  line "After resuming".toList c₀.ruid c₂.euid c₀.suid

def afterDropping (c : Creds) : List UInt8 :=
  line "After dropping privileges".toList c.ruid c.euid c.suid

/-- `main()`, in a process with the IDs `c₀`.  A call that is refused ends it with status 1. -/
def main (c₀ : Creds) : Run :=
  match c₀.call (.seteuid (some c₀.ruid)) with
  | none => ⟨1, [], [before c₀]⟩
  | some c₁ =>
    match c₁.call (.seteuid (some c₀.suid)) with
    | none => ⟨1, [c₁], [before c₀, afterSuspension c₀ c₁]⟩
    | some c₂ =>
      match c₂.call (.setresuid (some c₀.ruid) (some c₀.ruid) (some c₀.ruid)) with
      | none => ⟨1, [c₁, c₂], [before c₀, afterSuspension c₀ c₁, afterResuming c₀ c₂]⟩
      | some c₃ =>
        ⟨0, [c₁, c₂, c₃],
          [before c₀, afterSuspension c₀ c₁, afterResuming c₀ c₂, afterDropping c₃]⟩

/-! ## The drop is permanent -/

section

variable (c : Creds)

/-- The effective ID can always be set to the real one, … -/
theorem call_suspend : c.call (.seteuid (some c.ruid)) = some { c with euid := c.ruid } :=
  if_pos (Creds.may_iff.mpr (Or.inr (Or.inl rfl)))

/-- … to the saved one, … -/
theorem call_resume : c.call (.seteuid (some c.suid)) = some { c with euid := c.suid } :=
  if_pos (Creds.may_iff.mpr (Or.inr (Or.inr (Or.inr rfl))))

/-- … and all three to the real one. -/
theorem call_drop : c.call (.setresuid (some c.ruid) (some c.ruid) (some c.ruid)) =
    some (Creds.uniform c.ruid) := by
  have hmay : c.mayOpt (some c.ruid) = true := Creds.may_iff.mpr (Or.inr (Or.inl rfl))
  refine if_pos ?_
  rw [hmay]
  rfl

/-- None of the calls is refused, whatever the process starts with. -/
theorem main_eq : main c =
    ⟨0, [{ c with euid := c.ruid }, { c with euid := c.suid }, Creds.uniform c.ruid],
      [before c, afterSuspension c { c with euid := c.ruid },
        afterResuming c { c with euid := c.suid }, afterDropping (Creds.uniform c.ruid)]⟩ := by
  have hresume := call_resume { c with euid := c.ruid }
  have hdrop := call_drop { c with euid := c.suid }
  simp only [main, call_suspend, hresume, hdrop]

end

/-- **The drop is permanent.** -/
theorem main_drops (X Y : Nat) (hX : X ≠ 0) :
    (main ⟨X, Y, Y⟩).status = 0 ∧
      (main ⟨X, Y, Y⟩).ids = [⟨X, X, Y⟩, ⟨X, Y, Y⟩, ⟨X, X, X⟩] ∧
      ∀ c, Reach Creds.step (fun _ _ => True) ⟨X, X, X⟩ c →
        c.ruid = X ∧ c.euid = X ∧ c.suid = X := by
  rw [main_eq]
  refine ⟨rfl, rfl, fun c hc => ?_⟩
  obtain rfl := Creds.uniform_of_reach hX hc
  exact ⟨rfl, rfl, rfl⟩

/-- User 1000 runs the program with the file's owner 0. -/
theorem main_drops_thousand :
    (main ⟨1000, 0, 0⟩).status = 0 ∧
      (main ⟨1000, 0, 0⟩).ids = [⟨1000, 1000, 0⟩, ⟨1000, 0, 0⟩, ⟨1000, 1000, 1000⟩] ∧
      ∀ c, Reach Creds.step (fun _ _ => True) ⟨1000, 1000, 1000⟩ c →
        c.ruid = 1000 ∧ c.euid = 1000 ∧ c.suid = 1000 :=
  main_drops 1000 0 (by decide)

/-- Whereas a suspension is not: the saved ID leads back. -/
example : Reach Creds.step (fun _ _ => True) ⟨1000, 1000, 0⟩ ⟨1000, 0, 0⟩ :=
  Reach.step (l := .seteuid (some 0)) Reach.init trivial (by decide)

end LinuxInterface.SetUid
