/-
  Classic BPF, as far as system call filters use it.

  A program is a list of instructions over one accumulator; `load` gives the word at an offset of the
  data the filter looks at.  Jumps only go forward, so a machine is the rest of the program and the
  accumulator (`exec`).  The kernel refuses a program that might not end with a verdict; `check` is
  that test, and `run_isSome` that it does its work: every checked program gives a verdict on all
  data.  The equations of `exec` are the rules of symbolic execution.
-/
import Mathlib.Data.BitVec

namespace LinuxInterface.Bpf

/-- How a conditional jump compares the accumulator with its operand. -/
inductive Cmp where
  | jeq | jgt | jge | jset
  deriving DecidableEq

/-- The comparisons are of unsigned words; `jset` asks for a common bit. -/
def Cmp.holds : Cmp → BitVec 32 → BitVec 32 → Bool
  | .jeq, a, k => a = k
  | .jgt, a, k => k < a
  | .jge, a, k => k ≤ a
  | .jset, a, k => a &&& k ≠ 0

/-- The instructions: `BPF_LD | BPF_W | BPF_ABS`, `BPF_ALU | BPF_ADD | BPF_K`, `BPF_JMP | BPF_JA`, the
    conditional jumps with `BPF_K`, and `BPF_RET | BPF_K`. -/
inductive Insn where
  | ldAbs (k : Nat)
  | add (k : BitVec 32)
  | ja (k : Nat)
  | jump (c : Cmp) (k : BitVec 32) (jt jf : Nat)
  | ret (k : BitVec 32)
  deriving DecidableEq

variable {load : Nat → Option (BitVec 32)} {a k w : BitVec 32} {rest prog : List Insn} {n : Nat}

/-- At most `n` instructions of the program, with `a` in the accumulator. -/
def exec (load : Nat → Option (BitVec 32)) : Nat → List Insn → BitVec 32 → Option (BitVec 32)
  | 0, _, _ => none
  | _ + 1, [], _ => none
  | n + 1, .ldAbs k :: rest, _ => (load k).bind (exec load n rest)
  | n + 1, .add k :: rest, a => exec load n rest (a + k)
  | n + 1, .ja k :: rest, a => exec load n (rest.drop k) a
  | n + 1, .jump c k jt jf :: rest, a =>
    exec load n (rest.drop (if c.holds a k then jt else jf)) a
  | _ + 1, .ret k :: _, _ => some k

/-- The program on its data: no instruction is executed twice. -/
def run (load : Nat → Option (BitVec 32)) (prog : List Insn) : Option (BitVec 32) :=
  exec load prog.length prog 0

/-! ## Symbolic execution -/

@[simp] theorem exec_ret : exec load (n + 1) (.ret k :: rest) a = some k := rfl

@[simp] theorem exec_add : exec load (n + 1) (.add k :: rest) a = exec load n rest (a + k) := rfl

@[simp] theorem exec_ja {d : Nat} : exec load (n + 1) (.ja d :: rest) a = exec load n (rest.drop d) a :=
  rfl

/-- A load replaces the accumulator. -/
theorem exec_ldAbs {d : Nat} (h : load d = some w) :
    exec load (n + 1) (.ldAbs d :: rest) a = exec load n rest w := by
  show (load d).bind _ = _
  rw [h]
  rfl

/-- A conditional jump skips `jt` instructions if the comparison holds. -/
theorem exec_jump_true {c : Cmp} {jt jf : Nat} (h : c.holds a k = true) :
    exec load (n + 1) (.jump c k jt jf :: rest) a = exec load n (rest.drop jt) a := by
  show exec load n (rest.drop (if c.holds a k then jt else jf)) a = _
  rw [if_pos h]

/-- It skips `jf` if not. -/
theorem exec_jump_false {c : Cmp} {jt jf : Nat} (h : c.holds a k = false) :
    exec load (n + 1) (.jump c k jt jf :: rest) a = exec load n (rest.drop jf) a := by
  show exec load n (rest.drop (if c.holds a k then jt else jf)) a = _
  rw [if_neg (by rw [h]; decide)]

/-- The four jumps, each with its comparison as a proposition. -/
theorem exec_jeq {jt jf : Nat} :
    exec load (n + 1) (.jump .jeq k jt jf :: rest) a
      = if a = k then exec load n (rest.drop jt) a else exec load n (rest.drop jf) a := by
  split
  · next h => exact exec_jump_true (decide_eq_true h)
  · next h => exact exec_jump_false (decide_eq_false h)

theorem exec_jge {jt jf : Nat} :
    exec load (n + 1) (.jump .jge k jt jf :: rest) a
      = if k ≤ a then exec load n (rest.drop jt) a else exec load n (rest.drop jf) a := by
  split
  · next h => exact exec_jump_true (decide_eq_true h)
  · next h => exact exec_jump_false (decide_eq_false h)

theorem exec_jgt {jt jf : Nat} :
    exec load (n + 1) (.jump .jgt k jt jf :: rest) a
      = if k < a then exec load n (rest.drop jt) a else exec load n (rest.drop jf) a := by
  split
  · next h => exact exec_jump_true (decide_eq_true h)
  · next h => exact exec_jump_false (decide_eq_false h)

theorem exec_jset {jt jf : Nat} :
    exec load (n + 1) (.jump .jset k jt jf :: rest) a
      = if a &&& k ≠ 0 then exec load n (rest.drop jt) a else exec load n (rest.drop jf) a := by
  split
  · next h => exact exec_jump_true (decide_eq_true h)
  · next h => exact exec_jump_false (decide_eq_false h)

/-- More steps than needed change nothing. -/
theorem exec_mono {v : BitVec 32} : ∀ {n m : Nat} {prog : List Insn} {a : BitVec 32},
    exec load n prog a = some v → n ≤ m → exec load m prog a = some v
  | 0, m, prog, a, h, _ => nomatch h
  | n + 1, 0, prog, a, _, hle => absurd hle (Nat.not_succ_le_zero n)
  | n + 1, m + 1, [], a, h, _ => nomatch h
  | n + 1, m + 1, .ret k :: rest, a, h, _ => h
  | n + 1, m + 1, .add k :: rest, a, h, hle => by
    rw [exec_add] at h ⊢
    exact exec_mono h (Nat.le_of_succ_le_succ hle)
  | n + 1, m + 1, .ja k :: rest, a, h, hle => by
    rw [exec_ja] at h ⊢
    exact exec_mono h (Nat.le_of_succ_le_succ hle)
  | n + 1, m + 1, .ldAbs k :: rest, a, h, hle => by
    obtain ⟨w, hw, h'⟩ := Option.bind_eq_some_iff.mp h
    rw [exec_ldAbs hw]
    exact exec_mono h' (Nat.le_of_succ_le_succ hle)
  | n + 1, m + 1, .jump c k jt jf :: rest, a, h, hle => by
    cases hc : c.holds a k with
    | true =>
      rw [exec_jump_true hc] at h ⊢
      exact exec_mono h (Nat.le_of_succ_le_succ hle)
    | false =>
      rw [exec_jump_false hc] at h ⊢
      exact exec_mono h (Nat.le_of_succ_le_succ hle)

/-! ## The test of the kernel -/

/-- `BPF_MAXINSNS`. -/
def maxInsns : Nat := 4096

/-- Every load is one of the data, every jump stays inside, and the last instruction is a return. -/
def sound (loadable : Nat → Bool) : List Insn → Bool
  | [] => false
  | .ret _ :: rest => rest = [] || sound loadable rest
  | .ldAbs k :: rest => loadable k && sound loadable rest
  | .add _ :: rest => sound loadable rest
  | .ja k :: rest => k < rest.length && sound loadable rest
  | .jump _ _ jt jf :: rest => jt < rest.length && jf < rest.length && sound loadable rest

/-- `bpf_check_classic`: length and soundness. -/
def check (loadable : Nat → Bool) (prog : List Insn) : Bool :=
  prog.length ≤ maxInsns && sound loadable prog

variable {loadable : Nat → Bool}

/-- Behind any instruction but the last the program is sound. -/
theorem sound_tail {i : Insn} (h : sound loadable (i :: rest) = true) (hne : rest ≠ []) :
    sound loadable rest = true := by
  cases i with
  | ret k =>
    simp only [sound, Bool.or_eq_true, decide_eq_true_eq] at h
    exact h.resolve_left hne
  | ldAbs k => exact (Bool.and_eq_true_iff.mp h).2
  | add k => exact h
  | ja k => exact (Bool.and_eq_true_iff.mp h).2
  | jump c k jt jf => exact (Bool.and_eq_true_iff.mp h).2

/-- Wherever a jump leads, the rest of the program is sound. -/
theorem sound_drop (h : sound loadable prog = true) {d : Nat} (hd : d < prog.length) :
    sound loadable (prog.drop d) = true := by
  induction prog generalizing d with
  | nil => exact absurd hd (Nat.not_lt_zero d)
  | cons i rest ih =>
    cases d with
    | zero => exact h
    | succ d =>
      have hlt : d < rest.length := Nat.lt_of_succ_lt_succ hd
      have hne : rest ≠ [] := fun h0 => by rw [h0] at hlt; exact Nat.not_lt_zero d hlt
      exact ih (sound_tail h hne) hlt

/-- A sound program comes to a return, within as many instructions as it has. -/
theorem exec_isSome (hload : ∀ k, loadable k = true → (load k).isSome = true) :
    ∀ {n : Nat} {prog : List Insn} {a : BitVec 32}, sound loadable prog = true → prog.length ≤ n →
      (exec load n prog a).isSome = true
  | 0, prog, a, h, hn => by
    rw [List.eq_nil_of_length_eq_zero (Nat.le_zero.mp hn)] at h
    nomatch h
  | n + 1, [], a, h, _ => nomatch h
  | n + 1, .ret k :: rest, a, _, _ => rfl
  | n + 1, .add k :: rest, a, h, hn => by
    rw [exec_add]
    exact exec_isSome hload h (Nat.le_of_succ_le_succ hn)
  | n + 1, .ldAbs k :: rest, a, h, hn => by
    obtain ⟨hk, hrest⟩ := Bool.and_eq_true_iff.mp h
    obtain ⟨w, hw⟩ := Option.isSome_iff_exists.mp (hload k hk)
    rw [exec_ldAbs hw]
    exact exec_isSome hload hrest (Nat.le_of_succ_le_succ hn)
  | n + 1, .ja k :: rest, a, h, hn => by
    obtain ⟨hk, hrest⟩ := Bool.and_eq_true_iff.mp h
    have hlen : (rest.drop k).length ≤ n := by
      rw [List.length_drop]
      exact Nat.le_trans (Nat.sub_le _ _) (Nat.le_of_succ_le_succ hn)
    rw [exec_ja]
    exact exec_isSome hload (sound_drop hrest (of_decide_eq_true hk)) hlen
  | n + 1, .jump c k jt jf :: rest, a, h, hn => by
    obtain ⟨hjumps, hrest⟩ := Bool.and_eq_true_iff.mp h
    obtain ⟨hjt, hjf⟩ := Bool.and_eq_true_iff.mp hjumps
    have hlen : ∀ d, (rest.drop d).length ≤ n := by
      intro d
      rw [List.length_drop]
      exact Nat.le_trans (Nat.sub_le _ _) (Nat.le_of_succ_le_succ hn)
    cases hc : c.holds a k with
    | true =>
      rw [exec_jump_true hc]
      exact exec_isSome hload (sound_drop hrest (of_decide_eq_true hjt)) (hlen jt)
    | false =>
      rw [exec_jump_false hc]
      exact exec_isSome hload (sound_drop hrest (of_decide_eq_true hjf)) (hlen jf)

/-- **A checked program always gives a verdict.** -/
theorem run_isSome (hload : ∀ k, loadable k = true → (load k).isSome = true)
    (h : check loadable prog = true) : (run load prog).isSome = true :=
  exec_isSome hload (Bool.and_eq_true_iff.mp h).2 (Nat.le_refl _)

end LinuxInterface.Bpf
