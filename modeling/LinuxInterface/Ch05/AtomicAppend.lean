/-
  Concurrent instances of ch05/3_atomic_append.c on one file.

  1. **An instance** — its command line decides whether it opens the file with `O_APPEND` (`Inst`);
     then it is a loop of system calls: one `write` a byte with `O_APPEND`, an `lseek` to the end
     and a `write` without.  `instStep` is one system call.

  2. **The file** — only its size matters.  An `O_APPEND` write adds a byte at the end, a plain
     one writes at the descriptor's offset, which may lie before the end by then.

  3. **The invariant** — for one instance: it has written `done` bytes and the file has grown by at
     least as many, and between `lseek` and `write` the offset it remembers lies past as many
     (`Counts`).  For all together: the file has grown by at most the bytes written, and by at
     least those written with `O_APPEND`, of which none is lost (`Grown`).

  4. **All have finished** — `append_size` bounds the size from both sides, for any number of
     instances and any order of their calls.
-/
import LinuxInterface.Base.Interleave
import Mathlib.Algebra.Order.BigOperators.Group.Finset
import Mathlib.Data.Finset.Lattice.Fold
import Mathlib.Data.Fintype.Basic
import Mathlib.Order.Lattice.Nat

namespace LinuxInterface.AtomicAppend

open LinuxInterface

/-! ## The program -/

/-- What the command line asks for: a number of bytes, with or without `O_APPEND`. -/
structure Inst where
  append : Bool
  numBytes : Nat
  pos : 0 < numBytes

/-- The beginning of `main`, where `numBytes` is what `strtol` makes of `argv[2]`.  The branch that
    looks at `argv[3]` is never taken: its `argc == 3` is that of the branch before it. -/
def parseArgs (argc : Nat) (numBytes : Int) : Option Inst :=
  if argc < 3 ∨ argc > 4 then none
  else if h : numBytes ≤ 0 then none
  else some { append := argc == 3, numBytes := numBytes.toNat, pos := by omega }

-- it is the number of arguments that decides about `O_APPEND`, whatever the last one says
example : (parseArgs 3 5).map Inst.append = some true ∧ (parseArgs 4 5).map Inst.append = some false := by
  decide

/-- Where an instance is: before its `open`, at the test of the loop with the counter `i`, between
    `lseek` and `write`, or gone. -/
inductive Pc where
  | opening
  | looping (i : Nat)
  | seeked (i : Nat)
  | exited
  | failed (i : Nat)
  deriving DecidableEq

/-- The state of an instance: where it is, and the offset of its descriptor. -/
structure Local where
  pc : Pc
  offset : Nat
  deriving DecidableEq

/-- One system call of an instance on a file of `size` bytes; `ok` is whether it succeeds.  One
    that fails is the end of the instance (`error_exit`). -/
def instStep (prog : Inst) (ok : Bool) (l : Local) (size : Nat) : Option (Local × Nat) :=
  match l.pc with
  | .opening => if ok then some (⟨.looping 0, 0⟩, size) else some (⟨.failed 0, l.offset⟩, size)
  | .looping i =>
    if i < prog.numBytes then
      if prog.append then
        -- the kernel moves the offset to the end and writes, in one step
        if ok then some (⟨.looping (i + 1), size + 1⟩, size + 1)
        else some (⟨.failed i, l.offset⟩, size)
      else
        if ok then some (⟨.seeked i, size⟩, size) else some (⟨.failed i, l.offset⟩, size)
    else some (⟨.exited, l.offset⟩, size)
  | .seeked i =>
    if ok then some (⟨.looping (i + 1), l.offset + 1⟩, max size (l.offset + 1))
    else some (⟨.failed i, l.offset⟩, size)
  | .exited => none
  | .failed _ => none

variable {prog : Inst} {l l' : Local} {size size' s : Nat}

/-- A call that succeeds. -/
theorem instStep_cases (h : instStep prog true l size = some (l', size')) :
    (l.pc = .opening ∧ l' = ⟨.looping 0, 0⟩ ∧ size' = size) ∨
    (∃ i, l.pc = .looping i ∧ i < prog.numBytes ∧ prog.append = true ∧
      l' = ⟨.looping (i + 1), size + 1⟩ ∧ size' = size + 1) ∨
    (∃ i, l.pc = .looping i ∧ i < prog.numBytes ∧ prog.append = false ∧
      l' = ⟨.seeked i, size⟩ ∧ size' = size) ∨
    (∃ i, l.pc = .seeked i ∧ l' = ⟨.looping (i + 1), l.offset + 1⟩ ∧
      size' = max size (l.offset + 1)) ∨
    (∃ i, l.pc = .looping i ∧ ¬ i < prog.numBytes ∧ l' = ⟨.exited, l.offset⟩ ∧ size' = size) := by
  unfold instStep at h
  cases hpc : l.pc with
  | opening =>
    rw [hpc] at h
    cases h
    exact Or.inl ⟨rfl, rfl, rfl⟩
  | looping i =>
    rw [hpc] at h
    dsimp only at h
    by_cases hi : i < prog.numBytes
    · rw [if_pos hi] at h
      cases happ : prog.append with
      | true =>
        rw [happ] at h
        cases h
        exact Or.inr (Or.inl ⟨i, rfl, hi, rfl, rfl, rfl⟩)
      | false =>
        rw [happ] at h
        cases h
        exact Or.inr (Or.inr (Or.inl ⟨i, rfl, hi, rfl, rfl, rfl⟩))
    · rw [if_neg hi] at h
      cases h
      exact Or.inr (Or.inr (Or.inr (Or.inr ⟨i, rfl, hi, rfl, rfl⟩)))
  | seeked i =>
    rw [hpc] at h
    cases h
    exact Or.inr (Or.inr (Or.inr (Or.inl ⟨i, rfl, rfl, rfl⟩)))
  | exited => rw [hpc] at h; nomatch h
  | failed i => rw [hpc] at h; nomatch h

/-! ## One instance -/

/-- The bytes an instance has written. -/
def done (prog : Inst) (l : Local) : Nat :=
  match l.pc with
  | .opening => 0
  | .looping i => i
  | .seeked i => i
  | .exited => prog.numBytes
  | .failed i => i

/-- Of an instance on a file that had `s` bytes in the beginning. -/
structure Counts (s : Nat) (prog : Inst) (l : Local) (size : Nat) : Prop where
  bound : done prog l ≤ prog.numBytes
  grown : s + done prog l ≤ size
  /-- Between `lseek` and `write`. -/
  offset : ∀ i, l.pc = .seeked i → i < prog.numBytes ∧ prog.append = false ∧
    s + i ≤ l.offset ∧ l.offset ≤ size

/-- Other instances only make the file larger. -/
theorem Counts.mono (h : Counts s prog l size) (hle : size ≤ size') : Counts s prog l size' where
  bound := h.bound
  grown := Nat.le_trans h.grown hle
  offset := fun i hi => by
    obtain ⟨h1, h2, h3, h4⟩ := h.offset i hi
    exact ⟨h1, h2, h3, Nat.le_trans h4 hle⟩

/-- **One system call** of an instance: the file grows by at most the byte written, by exactly
    that with `O_APPEND`, and the count stays right. -/
theorem Counts.step (h : Counts s prog l size) (hstep : instStep prog true l size = some (l', size')) :
    Counts s prog l' size' ∧ size ≤ size' ∧ size' + done prog l ≤ size + done prog l' ∧
      (prog.append = true → size' + done prog l = size + done prog l') := by
  have hgrown := h.grown
  rcases instStep_cases hstep with ⟨hpc, rfl, rfl⟩ | ⟨i, hpc, hi, happ, rfl, rfl⟩ |
    ⟨i, hpc, hi, happ, rfl, rfl⟩ | ⟨i, hpc, rfl, rfl⟩ | ⟨i, hpc, hi, rfl, rfl⟩
  · -- open
    have hd : done prog l = 0 := by rw [done, hpc]
    rw [hd] at hgrown ⊢
    refine ⟨⟨Nat.zero_le _, hgrown, fun i hi => (nomatch hi)⟩, Nat.le_refl _, ?_, fun _ => ?_⟩
    · exact Nat.le_refl _
    · rfl
  · -- write with O_APPEND
    have hd : done prog l = i := by rw [done, hpc]
    rw [hd] at hgrown ⊢
    have hd' : done prog ⟨.looping (i + 1), size + 1⟩ = i + 1 := rfl
    refine ⟨⟨?_, ?_, fun i hi => (nomatch hi)⟩, Nat.le_succ _, ?_, fun _ => ?_⟩ <;> omega
  · -- lseek: the offset is the size
    have hd : done prog l = i := by rw [done, hpc]
    rw [hd] at hgrown ⊢
    have hd' : done prog ⟨.seeked i, size'⟩ = i := rfl
    refine ⟨⟨?_, ?_, fun j hj => ?_⟩, Nat.le_refl _, ?_, fun _ => ?_⟩
    · omega
    · omega
    · cases hj
      exact ⟨hi, happ, hgrown, Nat.le_refl _⟩
    · omega
    · omega
  · -- write at the offset of the lseek, which lies at most at the end
    obtain ⟨hi, happ, hlow, hhigh⟩ := h.offset i hpc
    have hd : done prog l = i := by rw [done, hpc]
    rw [hd]
    have hd' : done prog ⟨.looping (i + 1), l.offset + 1⟩ = i + 1 := rfl
    refine ⟨⟨?_, ?_, fun i hi => (nomatch hi)⟩, Nat.le_max_left _ _, ?_, fun h0 => ?_⟩
    · omega
    · omega
    · omega
    · rw [happ] at h0
      nomatch h0
  · -- exit: the loop test has failed
    have hd : done prog l = i := by rw [done, hpc]
    have hbound := h.bound
    have hd' : done prog ⟨.exited, l.offset⟩ = prog.numBytes := rfl
    rw [hd] at hgrown hbound ⊢
    have hin : i = prog.numBytes := by omega
    refine ⟨⟨?_, ?_, fun i hi => (nomatch hi)⟩, Nat.le_refl _, ?_, fun _ => ?_⟩ <;> omega

/-! ## All instances -/

section All

variable {ι : Type} [Fintype ι] (progs : ι → Inst)

/-- The instances with `O_APPEND`. -/
def appending : Finset ι := Finset.univ.filter fun i => (progs i).append = true

/-- The instances without. -/
def seeking : Finset ι := Finset.univ.filter fun i => (progs i).append = false

/-- No instance has done anything yet, and the file has `s` bytes. -/
def start (ι : Type) (s : Nat) : Pool ι Local Nat := ⟨fun _ => ⟨.opening, 0⟩, s⟩

/-- The count is right for every instance, and over all of them. -/
structure Grown (s : Nat) (p : Pool ι Local Nat) : Prop where
  each : ∀ i, Counts s (progs i) (p.locals i) p.shared
  upper : p.shared ≤ s + ∑ i, done (progs i) (p.locals i)
  lower : s + ∑ i ∈ appending progs, done (progs i) (p.locals i) ≤ p.shared

theorem grown_start (s : Nat) : Grown progs s (start ι s) where
  each := fun _ => ⟨Nat.zero_le _, Nat.le_refl _, fun _ hi => nomatch hi⟩
  upper := Nat.le_add_right _ _
  lower := by
    have hzero : ∑ i ∈ appending progs, done (progs i) ((start ι s).locals i) = 0 :=
      Finset.sum_eq_zero fun _ _ => rfl
    rw [hzero]
    exact Nat.le_refl s

variable [DecidableEq ι]

/-- A system call of one of the instances. -/
abbrev step (p : Pool ι Local Nat) (c : ι × Bool) : Option (Pool ι Local Nat) :=
  p.step (fun i ok l size => instStep (progs i) ok l size) c

/-- The call does not fail. -/
def NoFail (_ : Pool ι Local Nat) (c : ι × Bool) : Prop := c.2 = true

instance (p : Pool ι Local Nat) (c : ι × Bool) : Decidable (NoFail p c) :=
  inferInstanceAs (Decidable (_ = _))

variable {progs}

/-- One call of one instance. -/
theorem Grown.step {p p' : Pool ι Local Nat} {c : ι × Bool} (h : Grown progs s p) (hc : NoFail p c)
    (hstep : step progs p c = some p') : Grown progs s p' := by
  obtain ⟨i, ok⟩ := c
  obtain rfl : ok = true := hc
  obtain ⟨l', size', hthr, rfl⟩ := Pool.step_eq hstep
  obtain ⟨hcounts, hle, hmost, happ⟩ := (h.each i).step hthr
  have hall := sum_update_of_mem (fun i l => done (progs i) l) p.locals l' (Finset.mem_univ i)
  have hupper := h.upper
  have hlower := h.lower
  refine ⟨?_, ?_, ?_⟩
  · exact forall_update (J := fun j l => Counts s (progs j) l size') hcounts
      fun j _ => (h.each j).mono hle
  · show size' ≤ s + ∑ j, done (progs j) (Function.update p.locals i l' j)
    omega
  · show s + ∑ j ∈ appending progs, done (progs j) (Function.update p.locals i l' j) ≤ size'
    by_cases hi : i ∈ appending progs
    · -- an `O_APPEND` write is counted on both sides
      have hsome := sum_update_of_mem (fun i l => done (progs i) l) p.locals l' hi
      have heq := happ (Finset.mem_filter.mp hi).2
      omega
    · rw [sum_update_of_not_mem (fun i l => done (progs i) l) p.locals l' hi]
      exact Nat.le_trans hlower hle

theorem grown_of_reach {p : Pool ι Local Nat} (h : Reach (step progs) NoFail (start ι s) p) :
    Grown progs s p :=
  h.inv (grown_start progs s) fun _ _ _ hg hc hstep => hg.step hc hstep

/-- **The size of the file** when all instances have finished: `O_APPEND` loses nothing, an
    instance without it does not lose its own bytes to itself, and nothing is written twice. -/
theorem append_size {p : Pool ι Local Nat} (h : Reach (step progs) NoFail (start ι s) p)
    (hexit : ∀ i, (p.locals i).pc = .exited) :
    s + max (∑ i ∈ appending progs, (progs i).numBytes)
        ((seeking progs).sup fun i => (progs i).numBytes) ≤ p.shared ∧
      p.shared ≤ s + ∑ i, (progs i).numBytes ∧
      ((∀ i, (progs i).append = true) → p.shared = s + ∑ i, (progs i).numBytes) := by
  have hgrown := grown_of_reach h
  have hdone : ∀ i, done (progs i) (p.locals i) = (progs i).numBytes := by
    intro i
    rw [done, hexit i]
  have hupper := hgrown.upper
  have hlower := hgrown.lower
  rw [Finset.sum_congr rfl fun i _ => hdone i] at hupper hlower
  refine ⟨?_, hupper, fun hall => ?_⟩
  · -- the largest of the seeking instances is one of them
    have hsup : ((seeking progs).sup fun i => (progs i).numBytes) ≤ p.shared - s := by
      refine Finset.sup_le fun i _ => ?_
      have hi := (hgrown.each i).grown
      rw [hdone i] at hi
      omega
    have hs : s ≤ p.shared := by omega
    omega
  · have huniv : appending progs = Finset.univ :=
      Finset.filter_true_of_mem fun i _ => hall i
    rw [huniv] at hlower
    omega

end All

/-- One byte with `O_APPEND` and two without. -/
def twoInsts (i : Bool) : Inst :=
  if i then ⟨true, 1, by decide⟩ else ⟨false, 2, by decide⟩

/-- The second instance seeks, the first one writes and is gone, and its byte is overwritten: of
    three bytes the file of 5 has grown by two, which is the lower bound. -/
theorem append_size_twoInsts : ∃ p : Pool (Bool) Local Nat, p.shared = 7 ∧
    5 + max (∑ i ∈ appending twoInsts, (twoInsts i).numBytes)
      ((seeking twoInsts).sup fun i => (twoInsts i).numBytes) ≤ p.shared ∧
    p.shared ≤ 5 + ∑ i, (twoInsts i).numBytes := by
  have hrun : (runList (step twoInsts) NoFail (start (Bool) 5)
      [(false, true), (false, true), (true, true), (true, true), (true, true), (false, true),
        (false, true), (false, true), (false, true)]).map
        (fun p => (p.shared, (p.locals false).pc, (p.locals true).pc)) =
      some (7, .exited, .exited) := by decide +kernel
  obtain ⟨p, hp, hobs⟩ := Reach.of_observed hrun
  obtain ⟨hsize, hpcs⟩ := Prod.mk.inj hobs
  obtain ⟨h0, h1⟩ := Prod.mk.inj hpcs
  have hexit : ∀ i, (p.locals i).pc = .exited := Bool.forall_bool.mpr ⟨h0, h1⟩
  obtain ⟨hlow, hhigh, -⟩ := append_size hp hexit
  exact ⟨p, hsize, hlow, hhigh⟩

end LinuxInterface.AtomicAppend
