/-
  The user IDs of a process and the calls that set them.

  1. **The calls** — `setuid`, `seteuid`, `setreuid` and `setresuid` with the rules of Linux.  An
     argument is `none` where the caller passes `(uid_t) -1`: the two calls with several arguments
     then leave that ID as it is, the other two refuse it.

  2. **No way back** — a process without privileges of which all three IDs are the same keeps them,
     whatever it calls and however often (`uniform_of_reach`).
-/
import LinuxInterface.Base.Reach

namespace LinuxInterface

/-- The real, the effective and the saved user ID. -/
structure Creds where
  ruid : Nat
  euid : Nat
  suid : Nat
deriving DecidableEq

/-! ## The calls -/

/-- A call that sets user IDs. -/
inductive UidCall where
  | setuid (uid : Option Nat)
  | seteuid (euid : Option Nat)
  | setreuid (ruid euid : Option Nat)
  | setresuid (ruid euid suid : Option Nat)
deriving DecidableEq

namespace Creds

/-- Whether one of the IDs may be set to `id`. -/
def may (c : Creds) (id : Nat) : Bool := c.euid = 0 || id = c.ruid || id = c.euid || id = c.suid

/-- The same for an argument that may be left out. -/
def mayOpt (c : Creds) (id : Option Nat) : Bool := id.all c.may

/-- What the IDs are after a call; `none` if the call is refused. -/
def call (c : Creds) : UidCall → Option Creds
  | .setuid none => none
  | .setuid (some uid) =>
    if c.may uid then
      if c.euid = 0 then some ⟨uid, uid, uid⟩ else some { c with euid := uid }
    else none
  | .seteuid none => none
  | .seteuid (some euid) => if c.may euid then some { c with euid := euid } else none
  | .setreuid ruid euid =>
    if c.mayOpt ruid && c.mayOpt euid then
      some {
        ruid := ruid.getD c.ruid
        euid := euid.getD c.euid
        suid := if ruid.isSome || (euid.isSome && euid ≠ some c.ruid) then euid.getD c.euid
          else c.suid }
    else none
  | .setresuid ruid euid suid =>
    if c.mayOpt ruid && c.mayOpt euid && c.mayOpt suid then
      some ⟨ruid.getD c.ruid, euid.getD c.euid, suid.getD c.suid⟩
    else none

/-- The process makes a call.  A call that is refused changes nothing. -/
def step (c : Creds) (k : UidCall) : Option Creds := some ((c.call k).getD c)

/-! ## No way back -/

/-- All three IDs are `id`. -/
def uniform (id : Nat) : Creds := ⟨id, id, id⟩

section

variable {id : Nat}

theorem may_iff {c : Creds} {x : Nat} :
    c.may x = true ↔ c.euid = 0 ∨ x = c.ruid ∨ x = c.euid ∨ x = c.suid := by
  simp only [may, Bool.or_eq_true, decide_eq_true_iff, or_assoc]

theorem may_uniform (h : id ≠ 0) (x : Nat) : (uniform id).may x = true ↔ x = id := by
  rw [may_iff]
  show id = 0 ∨ x = id ∨ x = id ∨ x = id ↔ x = id
  omega

/-- The only ID that is left can be passed, or none. -/
theorem getD_of_mayOpt (h : id ≠ 0) {x : Option Nat} (hx : (uniform id).mayOpt x = true) :
    x.getD id = id := by
  cases x with
  | none => rfl
  | some x => exact (may_uniform h x).mp hx

/-- One call. -/
theorem call_uniform (h : id ≠ 0) {k : UidCall} {c : Creds} (hk : (uniform id).call k = some c) :
    c = uniform id := by
  cases k with
  | setuid uid =>
    cases uid with
    | none => nomatch hk
    | some uid =>
      obtain ⟨hmay, hk⟩ := Option.ite_none_right_eq_some.mp hk
      obtain rfl := (may_uniform h uid).mp hmay
      exact (Option.some.inj ((if_neg h).symm.trans hk)).symm
  | seteuid euid =>
    cases euid with
    | none => nomatch hk
    | some euid =>
      obtain ⟨hmay, hk⟩ := Option.ite_none_right_eq_some.mp hk
      obtain rfl := (may_uniform h euid).mp hmay
      exact (Option.some.inj hk).symm
  | setreuid ruid euid =>
    obtain ⟨hmay, hk⟩ := Option.ite_none_right_eq_some.mp hk
    rw [Bool.and_eq_true] at hmay
    have hr := getD_of_mayOpt h hmay.1
    have he := getD_of_mayOpt h hmay.2
    rw [← Option.some.inj hk]
    show Creds.mk (ruid.getD id) (euid.getD id) (if _ then euid.getD id else id) = _
    rw [hr, he, ite_self]
    rfl
  | setresuid ruid euid suid =>
    obtain ⟨hmay, hk⟩ := Option.ite_none_right_eq_some.mp hk
    rw [Bool.and_eq_true, Bool.and_eq_true] at hmay
    rw [← Option.some.inj hk]
    show Creds.mk (ruid.getD id) (euid.getD id) (suid.getD id) = _
    rw [getD_of_mayOpt h hmay.1.1, getD_of_mayOpt h hmay.1.2, getD_of_mayOpt h hmay.2]
    rfl

/-- **No way back**: any number of calls with any arguments. -/
theorem uniform_of_reach (h : id ≠ 0) {c : Creds}
    (hc : Reach step (fun _ _ => True) (uniform id) c) : c = uniform id := by
  refine hc.inv (I := fun c => c = uniform id) rfl fun s k s' hs _ hstep => ?_
  obtain rfl := hs
  rw [← Option.some.inj hstep]
  cases hk : (uniform id).call k with
  | none => rfl
  | some c' => exact call_uniform h hk

end

end Creds

end LinuxInterface
