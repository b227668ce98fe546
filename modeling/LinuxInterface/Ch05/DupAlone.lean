/-
  `my_dup2` (ch05/4_dup.c) in a process with one thread.

  1. **The run** — the system calls of `Ch05.Dup` one after the other, with nothing in between
     (`myDup2`).  Closing a descriptor that is not open does nothing, so whatever the check of
     `newfd` says, what `F_DUPFD` meets is the table with `newfd` closed (`myDup2_eq`).

  2. **`dup2`** — what the call it replaces does, or fails to do without a trace (`IsDup2`).

  3. **Agreement** — `F_DUPFD` refuses a descriptor beyond the limit, but by then it has been
     closed.  That takes a limit that was lowered below an open descriptor, and is the only
     difference: `myDup2_isDup2_iff`.
-/
import LinuxInterface.Base.Loop
import LinuxInterface.Ch05.Dup

namespace LinuxInterface.Dup

open LinuxInterface

variable {t t' : Table} {fd oldfd newfd : Int} {r : Int} {e : Entry}

/-! ## The run -/

/-- The next system call of `my_dup2`, if there is one. -/
def dup2Body (oldfd newfd : Int) : Pc × Table → Turn (Pc × Table) (Pc × Table) :=
  toEnd fun st => dup2Step oldfd newfd st.1 st.2

/-- `my_dup2`: at most four system calls. -/
def myDup2 (oldfd newfd : Int) (t : Table) : Option (Pc × Table) :=
  loopN (dup2Body oldfd newfd) 5 (.start, t)

theorem run_step {pc pc' : Pc} (h : dup2Step oldfd newfd pc t = some (pc', t')) (n : Nat) :
    loopN (dup2Body oldfd newfd) (n + 1) (pc, t) = loopN (dup2Body oldfd newfd) n (pc', t') :=
  loopN_again (toEnd_step h) n

theorem run_returned (r : Int) (n : Nat) :
    loopN (dup2Body oldfd newfd) (n + 1) (.returned r, t) = some (.returned r, t) :=
  loopN_leave rfl n

theorem fcntlGetfl_eq_neg_one : fcntlGetfl t fd = -1 ↔ t.look fd = none := by
  unfold fcntlGetfl
  cases t.look fd <;> simp

theorem close_limit : (close t fd).2.limit = t.limit := by
  unfold close
  split <;> rfl

theorem close_of_closed (h : t.look fd = none) : (close t fd).2 = t := by
  unfold close
  rw [h]
  rfl

/-- Whether or not it was open, the descriptor is closed afterwards. -/
theorem close_look_self : (close t fd).2.look fd = none := by
  by_cases hfd : t.look fd = none
  · rw [close_of_closed hfd, hfd]
  · have hopen : (t.look fd).isSome = true := Option.isSome_iff_ne_none.mpr hfd
    have hpos := Table.nonneg_of_look hfd
    unfold close
    rw [if_pos hopen]
    show (t.set fd.toNat none).look fd = none
    rw [Table.look_set, if_pos (by omega)]

/-- Where the `F_DUPFD` step leads. -/
theorem run_duping (n : Nat) :
    loopN (dup2Body oldfd newfd) (n + 2) (.duping, t) =
      some (.returned (if (fcntlDupfd t oldfd newfd).1 = -1 then -1 else newfd),
        (fcntlDupfd t oldfd newfd).2) := by
  by_cases hfail : (fcntlDupfd t oldfd newfd).1 = -1
  · have hstep : dup2Step oldfd newfd .duping t =
        some (.returned (-1), (fcntlDupfd t oldfd newfd).2) := if_pos hfail
    rw [run_step hstep, run_returned, if_pos hfail]
  · have hstep : dup2Step oldfd newfd .duping t =
        some (.returned newfd, (fcntlDupfd t oldfd newfd).2) := if_neg hfail
    rw [run_step hstep, run_returned, if_neg hfail]

/-- **The three ways through `my_dup2`.** -/
theorem myDup2_eq (oldfd newfd : Int) (t : Table) : myDup2 oldfd newfd t = some (
    if t.look oldfd = none then (.returned (-1), t)
    else if oldfd = newfd then (.returned newfd, t)
    else
      (.returned (if (fcntlDupfd (close t newfd).2 oldfd newfd).1 = -1 then -1 else newfd),
        (fcntlDupfd (close t newfd).2 oldfd newfd).2)) := by
  unfold myDup2
  by_cases hold : t.look oldfd = none
  · have hstep : dup2Step oldfd newfd .start t = some (.returned (-1), t) :=
      if_pos (fcntlGetfl_eq_neg_one.mpr hold)
    rw [run_step hstep, run_returned, if_pos hold]
  · have hopen := fun h => hold (fcntlGetfl_eq_neg_one.mp h)
    rw [if_neg hold]
    by_cases heq : oldfd = newfd
    · have hstep : dup2Step oldfd newfd .start t = some (.returned newfd, t) :=
        (if_neg hopen).trans (if_pos heq)
      rw [run_step hstep, run_returned, if_pos heq]
    · have hstep : dup2Step oldfd newfd .start t = some (.checking, t) :=
        (if_neg hopen).trans (if_neg heq)
      rw [run_step hstep, if_neg heq]
      by_cases hnew : t.look newfd = none
      · -- `newfd` is not open, and `close` would have done nothing
        have hcheck : dup2Step oldfd newfd .checking t = some (.duping, t) :=
          if_neg (not_not.mpr (fcntlGetfl_eq_neg_one.mpr hnew))
        rw [run_step hcheck, close_of_closed hnew, run_duping]
      · have hcheck : dup2Step oldfd newfd .checking t = some (.closing, t) :=
          if_pos fun h => hnew (fcntlGetfl_eq_neg_one.mp h)
        rw [run_step hcheck, run_step rfl, run_duping]

/-! ## `dup2` -/

/-- What `dup2(oldfd, newfd)` does to the table `t`: when `oldfd` is open and `newfd` is `oldfd` or
    within the limit, it returns `newfd`, which then refers to the open file description of
    `oldfd`, and leaves the other descriptors; else it fails and leaves the table. -/
def IsDup2 (oldfd newfd : Int) (t : Table) (r : Int) (t' : Table) : Prop :=
  if (t.look oldfd).isSome ∧ (newfd = oldfd ∨ 0 ≤ newfd ∧ newfd < t.limit) then
    r = newfd ∧ (t'.look newfd).map Entry.desc = (t.look oldfd).map Entry.desc ∧
      ∀ fd, fd ≠ newfd → t'.look fd = t.look fd
  else r = -1 ∧ t' = t

/-- The limit lies below the open descriptor `newfd`, and `my_dup2` gets as far as closing it. -/
def ClosedInVain (oldfd newfd : Int) (t : Table) : Prop :=
  t.look oldfd ≠ none ∧ oldfd ≠ newfd ∧ t.look newfd ≠ none ∧ (t.limit : Int) ≤ newfd

/-- `F_DUPFD` of a free descriptor within the limit makes that one. -/
theorem fcntlDupfd_free (hold : t.look oldfd = some e) (hnew : t.look newfd = none)
    (h0 : 0 ≤ newfd) (hlim : newfd < t.limit) :
    fcntlDupfd t oldfd newfd =
      (newfd, t.set newfd.toNat (some { e with cloexec := false })) := by
  have hfree : t.fds newfd.toNat = none := by
    rw [Table.look, if_neg (by omega)] at hnew
    exact hnew
  have hlow := Table.lowestFree_self (t := t) (k := newfd.toNat) (by omega) hfree
  have hcast : ((newfd.toNat : Nat) : Int) = newfd := by omega
  unfold fcntlDupfd
  rw [hold]
  dsimp only
  rw [if_neg (by omega), hlow]
  dsimp only
  rw [hcast]

theorem fcntlDupfd_beyond (h : newfd < 0 ∨ (t.limit : Int) ≤ newfd) :
    fcntlDupfd t oldfd newfd = (-1, t) := by
  rcases fcntlDupfd_or t oldfd newfd with heq | ⟨e, r, -, h0, hlim, -⟩
  · exact heq
  · omega

/-- Within the limit `my_dup2` puts the open file description of `oldfd` where `newfd` was. -/
theorem isDup2_within (hold : t.look oldfd = some e) (h0 : 0 ≤ newfd) (hlim : newfd < t.limit) :
    IsDup2 oldfd newfd t newfd
      ((close t newfd).2.set newfd.toNat (some { e with cloexec := false })) := by
  have hcast : newfd = ((newfd.toNat : Nat) : Int) := by omega
  unfold IsDup2
  rw [if_pos ⟨by rw [hold]; rfl, Or.inr ⟨h0, hlim⟩⟩]
  refine ⟨rfl, ?_, fun fd hfd => ?_⟩
  · rw [Table.look_set, if_pos hcast, hold]
    rfl
  · rw [Table.look_set, if_neg (by omega), close_look (Ne.symm hfd)]

/-- Beyond the limit it fails, which is right unless it has closed something. -/
theorem isDup2_beyond_iff (hne : oldfd ≠ newfd) (hbeyond : newfd < 0 ∨ (t.limit : Int) ≤ newfd) :
    IsDup2 oldfd newfd t (-1) (close t newfd).2 ↔ t.look newfd = none := by
  unfold IsDup2
  rw [if_neg (by rintro ⟨-, h | h⟩ <;> omega)]
  constructor
  · rintro ⟨-, hsame⟩
    rw [← hsame]
    exact close_look_self
  · intro hnew
    exact ⟨rfl, close_of_closed hnew⟩

/-- **Agreement.**  On every table, with every limit and for every two numbers `my_dup2` returns,
    and it has done what `dup2` does if and only if it did not close a descriptor that lies beyond
    the limit. -/
theorem myDup2_isDup2_iff (oldfd newfd : Int) (t : Table) :
    ∃ r t', myDup2 oldfd newfd t = some (.returned r, t') ∧
      (IsDup2 oldfd newfd t r t' ↔ ¬ ClosedInVain oldfd newfd t) := by
  rw [myDup2_eq]
  cases hold : t.look oldfd with
  | none =>
    refine ⟨-1, t, rfl, ?_⟩
    simp [IsDup2, ClosedInVain, hold]
  | some e =>
    by_cases heq : oldfd = newfd
    · subst heq
      refine ⟨oldfd, t, by simp, ?_⟩
      simp [IsDup2, ClosedInVain, hold]
    · have hold' : (close t newfd).2.look oldfd = some e := (close_look (Ne.symm heq)).trans hold
      simp only [reduceCtorEq, if_false, if_neg heq]
      by_cases hrange : 0 ≤ newfd ∧ newfd < t.limit
      · -- `newfd` is free now, and within the limit
        have hdup := fcntlDupfd_free hold' close_look_self hrange.1
          (by rw [close_limit]; exact hrange.2)
        rw [hdup, if_neg (by omega : newfd ≠ -1)]
        refine ⟨_, _, rfl, fun _ hvain => ?_, fun _ => isDup2_within hold hrange.1 hrange.2⟩
        have := hvain.2.2.2
        omega
      · have hbeyond : newfd < 0 ∨ (t.limit : Int) ≤ newfd := by omega
        rw [fcntlDupfd_beyond (by rw [close_limit]; exact hbeyond)]
        refine ⟨-1, (close t newfd).2, rfl, ?_⟩
        rw [isDup2_beyond_iff heq hbeyond]
        constructor
        · intro hnew hvain
          exact hvain.2.2.1 hnew
        · intro hvain
          by_contra hnew
          have hpos := Table.nonneg_of_look hnew
          exact hvain ⟨by rw [hold]; simp, heq, hnew, by omega⟩

/-- Descriptors 0 and 5 are open, and the limit has been lowered to 3. -/
def lowered : Table where
  fds := fun fd => if fd = 0 then some ⟨100, false⟩ else if fd = 5 then some ⟨105, false⟩ else none
  limit := 3

/-- **`my_dup2(0, 5)`** fails, as `dup2(0, 5)` does, but descriptor 5 is gone. -/
theorem myDup2_closes_in_vain : ∃ t', myDup2 0 5 lowered = some (.returned (-1), t') ∧
    lowered.look 5 = some ⟨105, false⟩ ∧ t'.look 5 = none ∧ ¬ IsDup2 0 5 lowered (-1) t' := by
  have hrun : (myDup2 0 5 lowered).map (fun st => (st.1, st.2.look 5)) =
      some (.returned (-1), none) := by decide +kernel
  obtain ⟨⟨pc, t'⟩, hcall, hobs⟩ := Option.map_eq_some_iff.mp hrun
  obtain ⟨rfl, hlook⟩ := Prod.mk.inj hobs
  refine ⟨t', hcall, rfl, hlook, fun his => ?_⟩
  unfold IsDup2 at his
  rw [if_neg (by decide)] at his
  rw [his.2] at hlook
  exact absurd hlook (by decide)

end LinuxInterface.Dup
