/-
  `my_dup2` (ch05/4_dup.c) in a process with other threads.

  1. **The descriptor table** — a descriptor is open on an open file description or it is not;
     `limit` is the number of descriptors a process may have.  `open` and `dup` take the lowest
     free descriptor, `F_DUPFD` the lowest free one from its argument on.

  2. **`my_dup2`** — four system calls, each one atomic step (`dup2Step`), with other threads'
     steps in between.

  3. **The window** — between `close(newfd)` (or the check that `newfd` is not open) and `F_DUPFD`
     another thread may be given `newfd`.  `F_DUPFD` then makes some other descriptor, and
     `my_dup2`, which only looks whether it failed, returns `newfd` all the same.
     `dup2_dupfd_iff`: in every interleaving that is the only thing that can go wrong.
-/
import LinuxInterface.Base.Interleave
import Mathlib.Data.List.Basic

namespace LinuxInterface.Dup

open LinuxInterface

/-! ## The descriptor table -/

/-- What a descriptor refers to: an open file description, and its own close-on-exec flag. -/
structure Entry where
  desc : Nat
  cloexec : Bool
  deriving DecidableEq

/-- The descriptors of a process. -/
structure Table where
  fds : Nat → Option Entry
  limit : Nat

/-- The entry of a descriptor; a negative number is none. -/
def Table.look (t : Table) (fd : Int) : Option Entry := if fd < 0 then none else t.fds fd.toNat

/-- The table with another entry for `fd`. -/
def Table.set (t : Table) (fd : Nat) (e : Option Entry) : Table :=
  { t with fds := Function.update t.fds fd e }

/-- The lowest free descriptor from `n` on. -/
def Table.lowestFree (t : Table) (n : Nat) : Option Nat :=
  (List.range' n (t.limit - n)).find? fun fd => (t.fds fd).isNone

/-- `fcntl(fd, F_GETFL)`: fails exactly on a closed descriptor (the flags themselves play no
    role). -/
def fcntlGetfl (t : Table) (fd : Int) : Int := if (t.look fd).isSome then 0 else -1

/-- `close(fd)`. -/
def close (t : Table) (fd : Int) : Int × Table :=
  if (t.look fd).isSome then (0, t.set fd.toNat none) else (-1, t)

/-- `fcntl(fd, F_DUPFD, n)`. -/
def fcntlDupfd (t : Table) (fd n : Int) : Int × Table :=
  match t.look fd with
  | none => (-1, t)
  | some e =>
    if n < 0 ∨ (t.limit : Int) ≤ n then (-1, t)
    else
      match t.lowestFree n.toNat with
      | none => (-1, t)
      | some r => (r, t.set r (some { e with cloexec := false }))

/-- `open`, on a new open file description. -/
def openFile (t : Table) (e : Entry) : Int × Table :=
  match t.lowestFree 0 with
  | none => (-1, t)
  | some r => (r, t.set r (some e))

/-- `dup(fd)`. -/
def dup (t : Table) (fd : Int) : Int × Table := fcntlDupfd t fd 0

/-! ## The threads -/

/-- Where `my_dup2` is. -/
inductive Pc where
  | start
  | checking
  | closing
  | duping
  | returned (r : Int)
  deriving DecidableEq

/-- One system call of `my_dup2(oldfd, newfd)`, with what the function does up to the next. -/
def dup2Step (oldfd newfd : Int) (pc : Pc) (t : Table) : Option (Pc × Table) :=
  match pc with
  | .start =>
    if fcntlGetfl t oldfd = -1 then some (.returned (-1), t)
    else if oldfd = newfd then some (.returned newfd, t)
    else some (.checking, t)
  | .checking => if fcntlGetfl t newfd ≠ -1 then some (.closing, t) else some (.duping, t)
  | .closing => some (.duping, (close t newfd).2)
  | .duping =>
    let (result, t) := fcntlDupfd t oldfd newfd
    if result = -1 then some (.returned (-1), t) else some (.returned newfd, t)
  | .returned _ => none

/-- A thread is in `my_dup2`, or it is another one, with the descriptors it has opened. -/
inductive Local where
  | dup2 (pc : Pc)
  | other (own : List Int)
  deriving DecidableEq

/-- What a thread does next: `my_dup2` goes on, or one of the calls of the other threads. -/
inductive Act where
  | run
  | openFile (e : Entry)
  | close (fd : Int)
  | dup (fd : Int)

/-- A thread that got `r` from `open` or `dup` has opened `r`, unless the call failed. -/
def gained (own : List Int) (r : Int) : List Int := if r = -1 then own else r :: own

/-- One system call of a thread. -/
def thread (oldfd newfd : Int) (a : Act) (l : Local) (t : Table) : Option (Local × Table) :=
  match l, a with
  | .dup2 pc, .run => (dup2Step oldfd newfd pc t).map fun (pc, t) => (.dup2 pc, t)
  | .other own, .openFile e => some (.other (gained own (openFile t e).1), (openFile t e).2)
  | .other own, .dup fd => some (.other (gained own (dup t fd).1), (dup t fd).2)
  | .other own, .close fd => some (.other (own.erase fd), (close t fd).2)
  | _, _ => none

/-- The descriptors a thread has opened. -/
def Local.owned : Local → List Int
  | .dup2 _ => []
  | .other own => own

variable {ι : Type} [DecidableEq ι]

/-- A system call of one of the threads. -/
abbrev step (oldfd newfd : Int) (p : Pool ι Local Table) (c : ι × Act) :
    Option (Pool ι Local Table) :=
  p.step (fun _ a l t => thread oldfd newfd a l t) c

/-- The other threads never touch `oldfd` and close only what they have opened themselves. -/
def Polite (oldfd : Int) (p : Pool ι Local Table) : ι × Act → Prop
  | (_, .run) => True
  | (_, .openFile _) => (p.shared.lowestFree 0).map Int.ofNat ≠ some oldfd
  | (_, .dup fd) => fd ≠ oldfd ∧ (p.shared.lowestFree 0).map Int.ofNat ≠ some oldfd
  | (i, .close fd) => fd ≠ oldfd ∧ fd ∈ (p.locals i).owned

instance (oldfd : Int) (p : Pool ι Local Table) : (c : ι × Act) → Decidable (Polite oldfd p c)
  | (_, .run) => inferInstanceAs (Decidable True)
  | (_, .openFile _) => inferInstanceAs (Decidable (_ ≠ _))
  | (_, .dup _) => inferInstanceAs (Decidable (_ ∧ _))
  | (_, .close _) => inferInstanceAs (Decidable (_ ∧ _))

/-- No thread has begun its `my_dup2` yet. -/
def Start (p : Pool ι Local Table) : Prop := ∀ i pc, p.locals i = .dup2 pc → pc = .start

/-! ## Single system calls -/

variable {t t' : Table} {fd n oldfd newfd : Int} {r k : Nat} {e : Entry}

/-- An open descriptor is not a negative number. -/
theorem Table.nonneg_of_look (h : t.look fd ≠ none) : 0 ≤ fd := by
  by_contra hneg
  rw [Table.look, if_pos (by omega)] at h
  exact h rfl

theorem Table.look_set (t : Table) (r : Nat) (x : Option Entry) (fd : Int) :
    (t.set r x).look fd = if fd = r then x else t.look fd := by
  unfold Table.look Table.set
  by_cases hneg : fd < 0
  · have hne : fd ≠ r := by omega
    rw [if_pos hneg, if_neg hne, if_pos hneg]
  · rw [if_neg hneg]
    by_cases hfd : fd = r
    · have hnat : fd.toNat = r := by omega
      rw [if_pos hfd, hnat]
      exact Function.update_self ..
    · have hnat : fd.toNat ≠ r := by omega
      rw [if_neg hfd, if_neg hneg]
      exact Function.update_of_ne hnat _ _

/-- The descriptor that is found is free and not below the argument. -/
theorem Table.lowestFree_spec (h : t.lowestFree k = some r) :
    k ≤ r ∧ t.look (r : Int) = none := by
  have hmem := List.mem_of_find?_eq_some h
  have hfree := List.find?_some h
  refine ⟨(List.mem_range'_1.mp hmem).1, ?_⟩
  unfold Table.look
  rw [if_neg (by omega), Int.toNat_natCast]
  exact Option.isNone_iff_eq_none.mp hfree

/-- A free argument is the lowest one. -/
theorem Table.lowestFree_self (hk : k < t.limit) (hfree : t.fds k = none) :
    t.lowestFree k = some k := by
  obtain ⟨m, hm⟩ : ∃ m, t.limit - k = m + 1 := ⟨t.limit - k - 1, by omega⟩
  unfold Table.lowestFree
  rw [hm, List.range'_succ, List.find?_cons_of_pos]
  rw [hfree]
  rfl

/-- `F_DUPFD` fails and leaves the table, or makes the lowest free descriptor. -/
theorem fcntlDupfd_or (t : Table) (fd n : Int) : fcntlDupfd t fd n = (-1, t) ∨
    ∃ e r, t.look fd = some e ∧ 0 ≤ n ∧ n < t.limit ∧ t.lowestFree n.toNat = some r ∧
      fcntlDupfd t fd n = ((r : Int), t.set r (some { e with cloexec := false })) := by
  unfold fcntlDupfd
  cases t.look fd with
  | none => exact .inl rfl
  | some e =>
    dsimp only
    by_cases hn : n < 0 ∨ (t.limit : Int) ≤ n
    · rw [if_pos hn]
      exact .inl rfl
    · rw [if_neg hn]
      cases t.lowestFree n.toNat with
      | none => exact .inl rfl
      | some r => exact .inr ⟨e, r, rfl, by omega, by omega, rfl, rfl⟩

/-- `F_DUPFD`, when it succeeds. -/
theorem fcntlDupfd_cases (h : (fcntlDupfd t fd n).1 ≠ -1) :
    ∃ e r, t.look fd = some e ∧ 0 ≤ n ∧ n < t.limit ∧ t.lowestFree n.toNat = some r ∧
      fcntlDupfd t fd n = ((r : Int), t.set r (some { e with cloexec := false })) :=
  (fcntlDupfd_or t fd n).resolve_left fun heq => h (by rw [heq])

/-- Descriptors that are open stay what they are when `F_DUPFD` makes one. -/
theorem fcntlDupfd_look (hother : t.look oldfd ≠ none ∨
    (t.lowestFree n.toNat).map Int.ofNat ≠ some oldfd) :
    (fcntlDupfd t fd n).2.look oldfd = t.look oldfd := by
  rcases fcntlDupfd_or t fd n with heq | ⟨e, r, -, -, -, hlow, heq⟩
  · rw [heq]
  · rw [heq]
    show (t.set r _).look oldfd = _
    rw [Table.look_set]
    refine if_neg fun hold => ?_
    rcases hother with hopen | hlow'
    · rw [hold, (Table.lowestFree_spec hlow).2] at hopen
      exact hopen rfl
    · rw [hlow] at hlow'
      exact hlow' (by rw [hold]; rfl)

theorem fcntlDupfd_look_self : (fcntlDupfd t oldfd n).2.look oldfd = t.look oldfd := by
  rcases fcntlDupfd_or t oldfd n with heq | ⟨e, r, hold, -⟩
  · rw [heq]
  · apply fcntlDupfd_look
    left
    rw [hold]
    exact Option.some_ne_none e

theorem openFile_look (h : (t.lowestFree 0).map Int.ofNat ≠ some oldfd) :
    (openFile t e).2.look oldfd = t.look oldfd := by
  unfold openFile
  cases hlow : t.lowestFree 0 with
  | none => rfl
  | some r =>
    show (t.set r _).look oldfd = _
    rw [Table.look_set]
    refine if_neg fun hold => ?_
    rw [hlow] at h
    exact h (by rw [hold]; rfl)

theorem close_look (h : fd ≠ oldfd) : (close t fd).2.look oldfd = t.look oldfd := by
  unfold close
  by_cases hopen : (t.look fd).isSome = true
  · rw [if_pos hopen]
    have hpos := Table.nonneg_of_look (Option.isSome_iff_ne_none.mp hopen)
    show (t.set fd.toNat none).look oldfd = _
    rw [Table.look_set, if_neg (by omega)]
  · rw [if_neg hopen]

/-! ## Interleavings -/

/-- A thread past the first check of `my_dup2` has two different descriptors. -/
def PastCheck (oldfd newfd : Int) : Local → Prop
  | .dup2 .checking => oldfd ≠ newfd
  | .dup2 .closing => oldfd ≠ newfd
  | .dup2 .duping => oldfd ≠ newfd
  | _ => True

/-- A step of `my_dup2` leaves `oldfd` as it is. -/
theorem dup2Step_look {pc pc' : Pc} (hpast : PastCheck oldfd newfd (.dup2 pc))
    (h : dup2Step oldfd newfd pc t = some (pc', t')) :
    t'.look oldfd = t.look oldfd ∧ PastCheck oldfd newfd (.dup2 pc') := by
  cases pc with
  | start =>
    unfold dup2Step at h
    dsimp only at h
    split at h
    · cases h
      exact ⟨rfl, trivial⟩
    · split at h
      · cases h
        exact ⟨rfl, trivial⟩
      · next hne =>
        cases h
        exact ⟨rfl, hne⟩
  | checking =>
    unfold dup2Step at h
    dsimp only at h
    split at h
    · cases h
      exact ⟨rfl, hpast⟩
    · cases h
      exact ⟨rfl, hpast⟩
  | closing =>
    cases h
    exact ⟨close_look (Ne.symm hpast), hpast⟩
  | duping =>
    unfold dup2Step at h
    dsimp only at h
    split at h
    · cases h
      exact ⟨fcntlDupfd_look_self, trivial⟩
    · cases h
      exact ⟨fcntlDupfd_look_self, trivial⟩
  | returned r => nomatch h

/-- A step of any thread leaves `oldfd` as it is. -/
theorem step_look {p p' : Pool ι Local Table} {c : ι × Act} (hpolite : Polite oldfd p c)
    (hpast : ∀ i, PastCheck oldfd newfd (p.locals i)) (hstep : step oldfd newfd p c = some p') :
    p'.shared.look oldfd = p.shared.look oldfd ∧ ∀ i, PastCheck oldfd newfd (p'.locals i) := by
  obtain ⟨i, a⟩ := c
  obtain ⟨l', t', hthr, rfl⟩ := Pool.step_eq hstep
  dsimp only at hthr ⊢
  have hsplit : t'.look oldfd = p.shared.look oldfd ∧ PastCheck oldfd newfd l' := by
    have hi := hpast i
    cases hl : p.locals i with
    | dup2 pc =>
      rw [hl] at hthr hi
      cases a with
      | run =>
        obtain ⟨⟨pc', t''⟩, hdup, heq⟩ := Option.map_eq_some_iff.mp hthr
        cases heq
        exact dup2Step_look hi hdup
      | openFile e => nomatch hthr
      | close fd => nomatch hthr
      | dup fd => nomatch hthr
    | other own =>
      rw [hl] at hthr
      cases a with
      | run => nomatch hthr
      | openFile e =>
        cases hthr
        exact ⟨openFile_look hpolite, trivial⟩
      | close fd =>
        cases hthr
        exact ⟨close_look hpolite.1, trivial⟩
      | dup fd =>
        cases hthr
        exact ⟨fcntlDupfd_look (Or.inr hpolite.2), trivial⟩
  exact ⟨hsplit.1, forall_update hsplit.2 fun j _ => hpast j⟩

/-- In every interleaving `oldfd` stays what it was. -/
theorem look_of_reach {p₀ p : Pool ι Local Table} (h0 : Start p₀)
    (h : Reach (step oldfd newfd) (Polite oldfd) p₀ p) :
    p.shared.look oldfd = p₀.shared.look oldfd ∧ ∀ i, PastCheck oldfd newfd (p.locals i) := by
  refine h.inv (I := fun p => p.shared.look oldfd = p₀.shared.look oldfd ∧
    ∀ i, PastCheck oldfd newfd (p.locals i)) ⟨rfl, fun i => ?_⟩ fun p c p' hI hc hstep => ?_
  · cases hl : p₀.locals i with
    | dup2 pc =>
      rw [h0 i pc hl]
      trivial
    | other own => trivial
  · obtain ⟨hlook, hpast⟩ := step_look hc hI.2 hstep
    exact ⟨hlook.trans hI.1, hpast⟩

/-- What the `F_DUPFD` step of `my_dup2`, from the table `t` to `t'`, is to do: `newfd` refers to
    the open file description that `oldfd` had in `t₀`, and no other descriptor changes. -/
def MakesNewfd (oldfd newfd : Int) (t₀ t t' : Table) : Prop :=
  (t'.look newfd).map Entry.desc = (t₀.look oldfd).map Entry.desc ∧
    ∀ fd, fd ≠ newfd → t'.look fd = t.look fd

/-- The step of `my_dup2` in the pool. -/
theorem step_run {p p' : Pool ι Local Table} {me : ι} {pc : Pc} (hpc : p.locals me = .dup2 pc)
    (hstep : step oldfd newfd p (me, .run) = some p') :
    ∃ pc', dup2Step oldfd newfd pc p.shared = some (pc', p'.shared) ∧ p'.locals me = .dup2 pc' := by
  obtain ⟨l', t', hthr, rfl⟩ := Pool.step_eq hstep
  dsimp only at hthr ⊢
  rw [hpc] at hthr
  obtain ⟨⟨pc', t''⟩, hdup, heq⟩ := Option.map_eq_some_iff.mp hthr
  cases heq
  exact ⟨pc', hdup, Function.update_self ..⟩

/-- The `F_DUPFD` step, when `my_dup2` returns `newfd` after it: the call has not failed, and what
    it made is the lowest free descriptor from `newfd` on. -/
theorem dup2Step_returned (hnew : newfd ≠ -1)
    (h : dup2Step oldfd newfd .duping t = some (.returned newfd, t')) :
    ∃ e r, t.look oldfd = some e ∧ 0 ≤ newfd ∧ newfd < t.limit ∧
      t.lowestFree newfd.toNat = some r ∧ t' = t.set r (some { e with cloexec := false }) := by
  unfold dup2Step at h
  dsimp only at h
  by_cases hfail : (fcntlDupfd t oldfd newfd).1 = -1
  · rw [if_pos hfail] at h
    have hpc := congrArg Prod.fst (Option.some.inj h)
    injection hpc with hpc
    exact absurd hpc.symm hnew
  · rw [if_neg hfail] at h
    obtain ⟨e, r, hlook, hpos, hlim, hlow, heq⟩ := fcntlDupfd_cases hfail
    rw [heq] at h
    exact ⟨e, r, hlook, hpos, hlim, hlow, (congrArg Prod.snd (Option.some.inj h)).symm⟩

/-- **The window.**  In every interleaving of `my_dup2(oldfd, newfd)` with threads that leave
    `oldfd` alone, when the `F_DUPFD` step has been taken and `my_dup2` returns `newfd`: that step
    did what it is to do if and only if `newfd` was free just before it, that is, if no other
    thread had been given it in the meantime. -/
theorem dup2_dupfd_iff {p₀ p p' : Pool ι Local Table} {me : ι} (h0 : Start p₀)
    (h : Reach (step oldfd newfd) (Polite oldfd) p₀ p) (hpc : p.locals me = .dup2 .duping)
    (hstep : step oldfd newfd p (me, .run) = some p') (hret : p'.locals me = .dup2 (.returned newfd))
    (hnew : newfd ≠ -1) :
    MakesNewfd oldfd newfd p₀.shared p.shared p'.shared ↔ p.shared.look newfd = none := by
  obtain ⟨hold, -⟩ := look_of_reach h0 h
  obtain ⟨pc', hdup, hpc'⟩ := step_run hpc hstep
  have hpc'' : pc' = .returned newfd := Local.dup2.inj (hpc'.symm.trans hret)
  rw [hpc''] at hdup
  obtain ⟨e, r, hlook, hpos, hlim, hlow, ht'⟩ := dup2Step_returned hnew hdup
  obtain ⟨hge, hfree⟩ := Table.lowestFree_spec hlow
  rw [ht']
  constructor
  · -- the descriptor that was made was free, and if it is not `newfd` it has changed
    rintro ⟨-, hsame⟩
    by_cases hr : (r : Int) = newfd
    · rw [← hr]
      exact hfree
    · have hrr := hsame r hr
      rw [Table.look_set, if_pos rfl, hfree] at hrr
      nomatch hrr
  · -- a free `newfd` is the lowest one from `newfd` on
    intro hnone
    have hfds : p.shared.fds newfd.toNat = none := by
      rw [Table.look, if_neg (by omega)] at hnone
      exact hnone
    have hself := Table.lowestFree_self (t := p.shared) (k := newfd.toNat) (by omega) hfds
    have hr : r = newfd.toNat := Option.some.inj (hlow.symm.trans hself)
    have hrn : newfd = (r : Int) := by omega
    refine ⟨?_, fun fd hfd => ?_⟩
    · rw [Table.look_set, if_pos hrn, ← hold, hlook]
      rfl
    · rw [Table.look_set, if_neg (by omega)]

/-! ## Two threads -/

/-- Descriptor 0 refers to description 100 and descriptor 1 to description 101; the first thread
    is about to call `my_dup2(0, 1)`. -/
def twoThreads : Pool Bool Local Table where
  locals := fun i => if i then .dup2 .start else .other []
  shared := ⟨fun fd => if fd = 0 then some ⟨100, false⟩ else if fd = 1 then some ⟨101, false⟩
    else none, 1024⟩

theorem twoThreads_start : Start twoThreads := by
  intro i pc hpc
  cases i with
  | true => exact (Local.dup2.inj hpc).symm
  | false => nomatch hpc

/-- What is seen of a run up to the `F_DUPFD` step and of that step: the two program counters, and
    what descriptors 1 and 2 refer to. -/
def observe (acts : List (Bool × Act)) :
    Option (Local × Local × Option Entry × Option Entry × Option Entry) :=
  (runList (step 0 1) (Polite 0) twoThreads acts).bind fun p =>
    (step 0 1 p (true, .run)).map fun p' => (p.locals true, p'.locals true, p.shared.look 1,
      p'.shared.look 1, p'.shared.look 2)

/-- The first thread is about to take the `F_DUPFD` step, and then takes it. -/
def AboutToDup (p p' : Pool Bool Local Table) : Prop :=
  p.locals true = .dup2 .duping ∧ step 0 1 p (true, .run) = some p' ∧ p'.locals true = .dup2 (.returned 1)

theorem aboutToDup_of_observed {acts : List (Bool × Act)} {a b c : Option Entry}
    (hrun : observe acts = some (.dup2 .duping, .dup2 (.returned 1), a, b, c)) :
    ∃ p p', Reach (step 0 1) (Polite 0) twoThreads p ∧ AboutToDup p p' ∧ p.shared.look 1 = a ∧
      p'.shared.look 1 = b ∧ p'.shared.look 2 = c := by
  obtain ⟨p, hp, hobs⟩ := Option.bind_eq_some_iff.mp hrun
  obtain ⟨p', hp', hobs⟩ := Option.map_eq_some_iff.mp hobs
  obtain ⟨hpc, hobs⟩ := Prod.mk.inj hobs
  obtain ⟨hpc', hobs⟩ := Prod.mk.inj hobs
  obtain ⟨ha, hobs⟩ := Prod.mk.inj hobs
  obtain ⟨hb, hc⟩ := Prod.mk.inj hobs
  exact ⟨p, p', Reach.of_runList Reach.init hp, ⟨hpc, hp', hpc'⟩, ha, hb, hc⟩

/-- The other thread opens its file before the window: all is well. -/
theorem dup2_dupfd_early : ∃ p p', AboutToDup p p' ∧
    MakesNewfd 0 1 twoThreads.shared p.shared p'.shared := by
  have hrun : observe [(false, .openFile ⟨102, false⟩), (true, .run), (true, .run), (true, .run)] =
      some (.dup2 .duping, .dup2 (.returned 1), none, some ⟨100, false⟩, some ⟨102, false⟩) := by
    decide +kernel
  obtain ⟨p, p', hp, hdup, hfree, -⟩ := aboutToDup_of_observed hrun
  exact ⟨p, p', hdup,
    (dup2_dupfd_iff twoThreads_start hp hdup.1 hdup.2.1 hdup.2.2 (by decide)).mpr hfree⟩

/-- **In the window** it is given descriptor 1.  `F_DUPFD` makes descriptor 2 then, `my_dup2`
    returns 1, and 1 refers to the other thread's file. -/
theorem dup2_overtaken : ∃ p p', Reach (step 0 1) (Polite 0) twoThreads p ∧ AboutToDup p p' ∧
    p'.shared.look 1 = some ⟨102, false⟩ ∧ p'.shared.look 2 = some ⟨100, false⟩ ∧
    ¬ MakesNewfd 0 1 twoThreads.shared p.shared p'.shared := by
  have hrun : observe [(true, .run), (true, .run), (true, .run), (false, .openFile ⟨102, false⟩)] =
      some (.dup2 .duping, .dup2 (.returned 1), some ⟨102, false⟩, some ⟨102, false⟩,
        some ⟨100, false⟩) := by
    decide +kernel
  obtain ⟨p, p', hp, hdup, -, h1, h2⟩ := aboutToDup_of_observed hrun
  refine ⟨p, p', hp, hdup, h1, h2, fun hmakes => ?_⟩
  have hdesc := hmakes.1
  rw [h1] at hdesc
  exact absurd hdesc (by decide)

end LinuxInterface.Dup
