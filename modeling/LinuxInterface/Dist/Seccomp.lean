/-
  seccomp/ (tlpi-dist): the system call filters of seccomp_deny_open.c, seccomp_control_open.c,
  seccomp_arg64.c, seccomp_multiarch.c, seccomp_perf.c, seccomp_trap_sigsys.c,
  seccomp_deny_syscall.c and seccomp_bench.c.

  1. **The data** — a `SeccompData` as a filter loads it, word by word (little-endian), and the
     verdicts.

  2. **The head of a filter** — the checks of the architecture and of the x32 bit, in the two forms
     the files have (`openHead`, `x86Head`): a call that is not native gets the kill, and any other
     one goes on to the rest of the filter with its number in the accumulator.

  3. **Several filters** — the kernel runs all of them, and the lowest action stands.

  4. **The filters** — for each its verdict on every call.  `Platform` collects what the `#if`s
     choose.

  5. **seccomp_bench.c** — the filter built by `createFilter` is accepted up to 4095 instructions
     before the return, and any number of copies of it lets every call through.
-/
import LinuxInterface.Base.Bpf

namespace LinuxInterface.Seccomp

open LinuxInterface.Bpf

/-! ## The data of a filter -/

/-- `struct seccomp_data`. -/
structure SeccompData where
  nr : BitVec 32
  arch : BitVec 32
  instructionPointer : BitVec 64
  args : Fin 6 → BitVec 64

/-- The word at the lower address, on a little-endian machine. -/
def low (x : BitVec 64) : BitVec 32 := x.setWidth 32

def high (x : BitVec 64) : BitVec 32 := (x >>> 32).setWidth 32

/-- The word at an offset; the kernel allows the aligned ones inside. -/
def SeccompData.load (d : SeccompData) (k : Nat) : Option (BitVec 32) :=
  if k = 0 then some d.nr
  else if k = 4 then some d.arch
  else if k = 8 then some (low d.instructionPointer)
  else if k = 12 then some (high d.instructionPointer)
  else if h : 16 ≤ k ∧ k < 64 ∧ k % 4 = 0 then
    let arg := d.args ⟨(k - 16) / 8, by omega⟩
    some (if k % 8 = 0 then low arg else high arg)
  else none

/-- The offsets at which the kernel allows a load. -/
def loadable (k : Nat) : Bool := k < 64 && k % 4 == 0

/-- `offsetof(struct seccomp_data, nr)`, and so on for the other fields. -/
def offsetofNr : Nat := 0

def offsetofArch : Nat := 4

def offsetofArgs (i : Fin 6) : Nat := 16 + 8 * i

variable {d : SeccompData}

theorem load_nr : d.load offsetofNr = some d.nr := rfl

theorem load_arch : d.load offsetofArch = some d.arch := rfl

/-- The two halves of an argument, of which the filters compare each with a word. -/
theorem load_args (i : Fin 6) : d.load (offsetofArgs i) = some (low (d.args i)) := by
  have hi : (⟨(offsetofArgs i - 16) / 8, by unfold offsetofArgs; omega⟩ : Fin 6) = i := by
    ext
    show (16 + 8 * i.val - 16) / 8 = i.val
    omega
  unfold SeccompData.load
  rw [if_neg (by unfold offsetofArgs; omega), if_neg (by unfold offsetofArgs; omega),
    if_neg (by unfold offsetofArgs; omega), if_neg (by unfold offsetofArgs; omega),
    dif_pos (by unfold offsetofArgs; omega)]
  dsimp only
  rw [if_pos (by unfold offsetofArgs; omega), hi]

theorem load_args_high (i : Fin 6) : d.load (offsetofArgs i + 4) = some (high (d.args i)) := by
  have hi : (⟨(offsetofArgs i + 4 - 16) / 8, by unfold offsetofArgs; omega⟩ : Fin 6) = i := by
    ext
    show (16 + 8 * i.val + 4 - 16) / 8 = i.val
    omega
  unfold SeccompData.load
  rw [if_neg (by unfold offsetofArgs; omega), if_neg (by unfold offsetofArgs; omega),
    if_neg (by unfold offsetofArgs; omega), if_neg (by unfold offsetofArgs; omega),
    dif_pos (by unfold offsetofArgs; omega)]
  dsimp only
  rw [if_neg (by unfold offsetofArgs; omega), hi]

/-- What the kernel allows can be loaded. -/
theorem load_isSome {k : Nat} (h : loadable k = true) : (d.load k).isSome = true := by
  have hk : k < 64 ∧ k % 4 = 0 := by simpa [loadable] using h
  unfold SeccompData.load
  split
  · rfl
  split
  · rfl
  split
  · rfl
  split
  · rfl
  · rw [dif_pos (by omega)]
    rfl

/-! ## Verdicts and numbers -/

/-- `SECCOMP_RET_KILL_PROCESS`. -/
def killProcess : BitVec 32 := 0x80000000#32

/-- `SECCOMP_RET_KILL`, an old name of `SECCOMP_RET_KILL_THREAD`. -/
def killThread : BitVec 32 := 0#32

/-- `SECCOMP_RET_TRAP`. -/
def trap : BitVec 32 := 0x00030000#32

/-- `SECCOMP_RET_ERRNO` with the error for the caller. -/
def errno (e : BitVec 32) : BitVec 32 := 0x00050000#32 ||| e

/-- `SECCOMP_RET_ALLOW`. -/
def allow : BitVec 32 := 0x7fff0000#32

/-- `AUDIT_ARCH_X86_64`; x32 has the same, and is told apart by a bit of the number. -/
def auditArchX8664 : BitVec 32 := 0xC000003E#32

/-- `AUDIT_ARCH_I386`. -/
def auditArchI386 : BitVec 32 := 0x40000003#32

/-- `X32_SYSCALL_BIT`. -/
def x32SyscallBit : BitVec 32 := 0x40000000#32

/-- `__NR_lseek` on x86-64. -/
def nrLseek : BitVec 32 := 8#32

/-- `__NR_getppid` on x86-64. -/
def nrGetppid : BitVec 32 := 110#32

/-- What the conditional compilation chooses: the architecture the filter expects (none on a machine
    the program does not know), whether system calls can have the x32 bit, and the numbers of `open`
    (where there is one) and `openat`. -/
structure Platform where
  auditArch : Option (BitVec 32)
  x32 : Bool
  nrOpen : Option (BitVec 32)
  nrOpenat : BitVec 32

/-- The only platform that has both an `open` and an x32 bit. -/
def x8664 : Platform := ⟨some auditArchX8664, true, some 2#32, 257#32⟩

/-- A call made the way the program's own calls are made. -/
def Native (p : Platform) (d : SeccompData) : Prop :=
  p.auditArch = some d.arch ∧ (p.x32 = true → d.nr < x32SyscallBit)

instance (p : Platform) (d : SeccompData) : Decidable (Native p d) :=
  inferInstanceAs (Decidable (_ ∧ _))

/-! ## The heads -/

/-- The first instructions of seccomp_deny_open.c and seccomp_control_open.c. -/
def openHead (p : Platform) : List Insn :=
  [.ldAbs offsetofArch]
  ++ (match p.auditArch with
      | some arch => [.jump .jeq arch 1 0]
      | none => [])
  ++ [.ret killProcess, .ldAbs offsetofNr]
  ++ (if p.x32 then [.jump .jge x32SyscallBit 0 1, .ret killProcess] else [])

/-- The first instructions of seccomp_arg64.c and seccomp_perf.c: the two checks share one return. -/
def x86Head : List Insn :=
  [.ldAbs offsetofArch, .jump .jeq auditArchX8664 0 2, .ldAbs offsetofNr,
    .jump .jge x32SyscallBit 0 1, .ret killProcess]

variable {p : Platform} {body : List Insn} {n : Nat} {v a k : BitVec 32} {rest : List Insn}

/-- A native call comes to the rest of the filter, with its number in the accumulator. -/
theorem openHead_native (h : Native p d) (hb : exec d.load body.length body d.nr = some v) :
    run d.load (openHead p ++ body) = some v := by
  obtain ⟨harch, hx⟩ := h
  have hrest : ∀ {m}, body.length ≤ m → exec d.load m body d.nr = some v := fun hm => exec_mono hb hm
  unfold run openHead
  cases hp : p.x32 with
  | true =>
    have hlt : ¬ x32SyscallBit ≤ d.nr := BitVec.not_le.mpr (hx hp)
    simp only [harch, if_true, List.cons_append, List.nil_append, List.length_cons]
    rw [exec_ldAbs load_arch, exec_jeq, if_pos rfl]
    simp only [List.drop_succ_cons, List.drop_zero]
    rw [exec_ldAbs load_nr, exec_jge, if_neg hlt]
    exact hrest (by omega)
  | false =>
    simp only [harch, Bool.false_eq_true, if_false, List.cons_append, List.nil_append, List.append_nil,
      List.length_cons]
    rw [exec_ldAbs load_arch, exec_jeq, if_pos rfl]
    simp only [List.drop_succ_cons, List.drop_zero]
    rw [exec_ldAbs load_nr]
    exact hrest (by omega)

/-- No other one does, whatever the rest of the filter is. -/
theorem openHead_foreign (h : ¬ Native p d) : run d.load (openHead p ++ body) = some killProcess := by
  unfold run openHead
  cases ha : p.auditArch with
  | none =>
    simp only [List.cons_append, List.nil_append, List.length_cons]
    rw [exec_ldAbs load_arch, exec_ret]
  | some arch =>
    simp only [List.cons_append, List.nil_append, List.length_cons]
    rw [exec_ldAbs load_arch, exec_jeq]
    split
    · next harch =>
      -- the right architecture, so the number has the bit
      have hbit : p.x32 = true ∧ x32SyscallBit ≤ d.nr := by
        unfold Native at h
        rw [ha, harch] at h
        simpa using h
      simp only [hbit.1, if_true, List.drop_succ_cons, List.drop_zero, List.cons_append, List.nil_append,
        List.length_cons]
      rw [exec_ldAbs load_nr, exec_jge, if_pos hbit.2, List.drop_zero, exec_ret]
    · rw [List.drop_zero, exec_ret]

/-- The same for the other head, where the checks share their return. -/
theorem x86Head_native (h : Native x8664 d) (hb : exec d.load body.length body d.nr = some v) :
    run d.load (x86Head ++ body) = some v := by
  have harch : d.arch = auditArchX8664 := (Option.some.inj h.1).symm
  have hlt : ¬ x32SyscallBit ≤ d.nr := BitVec.not_le.mpr (h.2 rfl)
  unfold run x86Head
  simp only [List.cons_append, List.nil_append, List.length_cons]
  rw [exec_ldAbs load_arch, exec_jeq, if_pos harch, List.drop_zero, exec_ldAbs load_nr, exec_jge,
    if_neg hlt]
  exact exec_mono hb (by omega)

theorem x86Head_foreign (h : ¬ Native x8664 d) : run d.load (x86Head ++ body) = some killProcess := by
  unfold run x86Head
  simp only [List.cons_append, List.nil_append, List.length_cons]
  rw [exec_ldAbs load_arch, exec_jeq]
  split
  · next harch =>
    have hbit : x32SyscallBit ≤ d.nr := by
      refine BitVec.not_lt.mp fun hlt => h ⟨?_, fun _ => hlt⟩
      rw [harch]
      rfl
    rw [List.drop_zero, exec_ldAbs load_nr, exec_jge, if_pos hbit, List.drop_zero, exec_ret]
  · simp only [List.drop_succ_cons, List.drop_zero]
    rw [exec_ret]

/-! ## Several filters -/

/-- `ACTION_ONLY` of the kernel: the action of a verdict, as a signed number. -/
def actionOnly (ret : BitVec 32) : Int := (ret &&& 0xffff0000#32).toInt

/-- One more verdict on a call: the lower action stands. -/
def lower (ret cur : BitVec 32) : BitVec 32 := if actionOnly cur < actionOnly ret then cur else ret

/-- What stands of the verdicts on a call, from whatever filters they are. -/
def standing (verdicts : List (BitVec 32)) : BitVec 32 := verdicts.foldl lower allow

/-- One more filter on a call. -/
def runFilter (load : Nat → Option (BitVec 32)) (ret : BitVec 32) (filter : List Insn) :
    Option (BitVec 32) :=
  (run load filter).map (lower ret)

/-- All filters of a process are run on a call. -/
def runFilters (load : Nat → Option (BitVec 32)) (filters : List (List Insn)) : Option (BitVec 32) :=
  filters.foldlM (runFilter load) allow

theorem actionOnly_lower_le (ret cur : BitVec 32) :
    actionOnly (lower ret cur) ≤ actionOnly ret ∧ actionOnly (lower ret cur) ≤ actionOnly cur := by
  unfold lower
  split
  · next hlt => exact ⟨hlt.le, le_refl _⟩
  · next hge => exact ⟨le_refl _, not_lt.mp hge⟩

/-- No verdict raises the action, and none is overruled. -/
theorem foldl_lower_le (verdicts : List (BitVec 32)) (ret : BitVec 32) :
    actionOnly (verdicts.foldl lower ret) ≤ actionOnly ret
      ∧ ∀ v ∈ verdicts, actionOnly (verdicts.foldl lower ret) ≤ actionOnly v := by
  induction verdicts generalizing ret with
  | nil => exact ⟨le_refl _, fun v hv => nomatch hv⟩
  | cons cur verdicts ih =>
    obtain ⟨hret, hcur⟩ := actionOnly_lower_le ret cur
    obtain ⟨hle, hvs⟩ := ih (lower ret cur)
    refine ⟨hle.trans hret, fun v hv => ?_⟩
    rcases List.mem_cons.mp hv with rfl | hv
    · exact hle.trans hcur
    · exact hvs v hv

/-- Killing the process is the lowest action there is. -/
theorem actionOnly_killProcess_le (v : BitVec 32) : actionOnly killProcess ≤ actionOnly v := by
  have hkill : actionOnly killProcess = -2 ^ 31 := by decide
  rw [hkill]
  exact BitVec.le_toInt _

/-- One verdict that kills is enough. -/
theorem standing_kill {verdicts : List (BitVec 32)} (h : killProcess ∈ verdicts) :
    actionOnly (standing verdicts) = actionOnly killProcess :=
  le_antisymm ((foldl_lower_le verdicts allow).2 _ h) (actionOnly_killProcess_le _)

theorem standing_replicate (n : Nat) : standing (List.replicate n allow) = allow := by
  unfold standing
  induction n with
  | zero => rfl
  | succ n ih =>
    have hsame : lower allow allow = allow := rfl
    rw [List.replicate_succ, List.foldl_cons, hsame, ih]

/-- Filters that come to verdicts come to what stands of these. -/
theorem runFilters_eq {load : Nat → Option (BitVec 32)} {verdict : List Insn → BitVec 32}
    {filters : List (List Insn)} (h : ∀ f ∈ filters, run load f = some (verdict f)) :
    runFilters load filters = some (standing (filters.map verdict)) := by
  unfold runFilters standing
  generalize allow = ret
  induction filters generalizing ret with
  | nil => rfl
  | cons f fs ih =>
    have hf : runFilter load ret f = some (lower ret (verdict f)) := by
      unfold runFilter
      rw [h f List.mem_cons_self]
      rfl
    rw [List.foldlM_cons, hf]
    exact ih (fun g hg => h g (List.mem_cons_of_mem f hg)) _

/-- Where every filter allows the call, so do all together. -/
theorem runFilters_allow {load : Nat → Option (BitVec 32)} {filters : List (List Insn)}
    (h : ∀ f ∈ filters, run load f = some allow) : runFilters load filters = some allow := by
  rw [runFilters_eq h, List.map_const', standing_replicate]

/-- Accepted filters come to a verdict, and one that kills is enough. -/
theorem runFilters_kill {filters : List (List Insn)} {filter : List Insn}
    (h : ∀ f ∈ filters, check loadable f = true) (hf : filter ∈ filters)
    (hkill : run d.load filter = some killProcess) :
    ∃ v, runFilters d.load filters = some v ∧ actionOnly v = actionOnly killProcess := by
  have hrun : ∀ f ∈ filters, run d.load f = some ((run d.load f).getD allow) := by
    intro f hf
    obtain ⟨cur, hcur⟩ := Option.isSome_iff_exists.mp
      (run_isSome (fun _ hk => load_isSome (d := d) hk) (h f hf))
    rw [hcur]
    rfl
  refine ⟨_, runFilters_eq hrun, standing_kill (List.mem_map.mpr ⟨filter, hf, ?_⟩)⟩
  rw [hkill]
  rfl

/-! ## The filters -/

/-- The kernel accepts the filter, and on every call it comes to the verdict. -/
structure Decides (filter : List Insn) (verdict : SeccompData → BitVec 32) : Prop where
  accepted : check loadable filter = true
  decides : ∀ d, run d.load filter = some (verdict d)

/-- seccomp_deny_open.c. -/
def denyOpen (p : Platform) : List Insn :=
  openHead p
  ++ ((match p.nrOpen with
      | some nr => [.jump .jeq nr 2 0]
      | none => [])
    ++ [.jump .jeq p.nrOpenat 1 0, .ret allow, .ret killProcess])

/-- `open` or `openat`. -/
def Opens (p : Platform) (d : SeccompData) : Prop := p.nrOpen = some d.nr ∨ d.nr = p.nrOpenat

instance (p : Platform) (d : SeccompData) : Decidable (Opens p d) :=
  inferInstanceAs (Decidable (_ ∨ _))

/-- The kernel takes the filter whatever the `#if`s have chosen. -/
theorem denyOpen_accepted (p : Platform) : check loadable (denyOpen p) = true := by
  obtain ⟨_ | arch, _ | _, _ | nr, nrOpenat⟩ := p <;> rfl

/-- **seccomp_deny_open.c**: whatever the platform, exactly the native calls other than `open` and
    `openat` get through; all others kill the process. -/
theorem denyOpen_verdict (p : Platform) :
    Decides (denyOpen p) fun d =>
      if Native p d ∧ ¬ Opens p d then allow else killProcess where
  accepted := denyOpen_accepted p
  decides d := by
    obtain ⟨arch, x32, nrOpen, nrOpenat⟩ := p
    by_cases hn : Native ⟨arch, x32, nrOpen, nrOpenat⟩ d
    · refine openHead_native hn ?_
      unfold Opens
      cases nrOpen with
      | none =>
        simp only [List.nil_append, List.length_cons, List.length_nil, exec_jeq, List.drop_succ_cons,
          List.drop_zero, exec_ret, hn, true_and]
        by_cases hat : d.nr = nrOpenat
        · rw [if_pos hat, if_neg (fun h => h (Or.inr hat))]
        · rw [if_neg hat, if_pos (by simpa using hat)]
      | some nr =>
        simp only [List.cons_append, List.nil_append, List.length_cons, List.length_nil, exec_jeq,
          List.drop_succ_cons, List.drop_zero, exec_ret, hn, true_and]
        by_cases hopen : d.nr = nr
        · rw [if_pos hopen, if_neg (fun h => h (Or.inl (congrArg some hopen.symm)))]
        by_cases hat : d.nr = nrOpenat
        · rw [if_neg hopen, if_pos hat, if_neg (fun h => h (Or.inr hat))]
        · rw [if_neg hopen, if_neg hat, if_pos (fun h => h.elim (fun h => hopen (Option.some.inj h).symm) hat)]
    · rw [if_neg (fun h => hn h.1)]
      exact openHead_foreign hn

/-- **The filter lasts**: alone it stops exactly the calls that do not pass, and these stay fatal
    whatever other filters the process has, before this one or added later: filters of the
    instructions modelled here that the kernel accepts, or any others, by the verdicts they give. -/
theorem denyOpen_lasts (p : Platform) (d : SeccompData) :
    (runFilters d.load [denyOpen p] = some allow ↔ Native p d ∧ ¬ Opens p d)
      ∧ (∀ filters, (∀ f ∈ filters, check loadable f = true) → denyOpen p ∈ filters →
          ¬ (Native p d ∧ ¬ Opens p d) →
          ∃ v, runFilters d.load filters = some v ∧ actionOnly v = actionOnly killProcess)
      ∧ ∀ verdicts v, run d.load (denyOpen p) = some v → v ∈ verdicts →
          ¬ (Native p d ∧ ¬ Opens p d) →
          actionOnly (standing verdicts) = actionOnly killProcess := by
  have hv := (denyOpen_verdict p).decides d
  refine ⟨⟨fun h => ?_, fun h => ?_⟩, fun filters hfs hmem hpass => ?_, fun verdicts v hrun hmem hpass => ?_⟩
  · by_contra hpass
    rw [if_neg hpass] at hv
    have hone : ∀ f ∈ [denyOpen p], check loadable f = true :=
      fun f hf => List.mem_singleton.mp hf ▸ denyOpen_accepted p
    obtain ⟨v, hv', hact⟩ := runFilters_kill hone (List.mem_singleton_self _) hv
    rw [h] at hv'
    cases hv'
    exact absurd hact (by decide)
  · rw [if_pos h] at hv
    exact runFilters_allow fun f hf => List.mem_singleton.mp hf ▸ hv
  · rw [if_neg hpass] at hv
    exact runFilters_kill hfs hmem hv
  · rw [hrun, if_neg hpass] at hv
    rw [Option.some.inj hv] at hmem
    exact standing_kill hmem

/-- An `open` on x86-64. -/
def openCall : SeccompData := ⟨2#32, auditArchX8664, 0, fun _ => 0⟩

/-- Behind a filter that allows everything. -/
theorem denyOpen_lasts_underAllow :
    ∃ v, runFilters openCall.load [[.ret allow], denyOpen x8664] = some v
      ∧ actionOnly v = actionOnly killProcess :=
  (denyOpen_lasts x8664 openCall).2.1 _ (by decide) (by decide) (by decide)

/-- `O_WRONLY`, `O_RDWR` and `O_CREAT`, as the kernel of x86-64 and arm64 has them. -/
def oWronly : BitVec 32 := 1#32

def oRdwr : BitVec 32 := 2#32

def oCreat : BitVec 32 := 0x40#32

/-- `ENOTSUP`. -/
def enotsup : BitVec 32 := 95#32

/-- The last instructions of seccomp_control_open.c, with the flags in the accumulator. -/
def flagsTail : List Insn :=
  [.jump .jset oCreat 0 1, .ret killProcess,
    .jump .jset (oWronly ||| oRdwr) 0 1, .ret (errno enotsup),
    .ret allow]

/-- seccomp_control_open.c. -/
def controlOpen (p : Platform) : List Insn :=
  openHead p
  ++ ((match p.nrOpen with
      | some nr => [.jump .jeq nr 0 2, .ldAbs (offsetofArgs 1), .ja 3]
      | none => [])
    ++ [.jump .jeq p.nrOpenat 1 0, .ret allow, .ldAbs (offsetofArgs 2)]
    ++ flagsTail)

/-- The flags of an open: the second argument of `open`, the third of `openat`. -/
def openFlags (p : Platform) (d : SeccompData) : Option (BitVec 32) :=
  if p.nrOpen = some d.nr then some (low (d.args 1))
  else if d.nr = p.nrOpenat then some (low (d.args 2))
  else none

/-- The verdict on these flags. -/
def flagsVerdict (flags : BitVec 32) : BitVec 32 :=
  if flags &&& oCreat ≠ 0 then killProcess
  else if flags &&& (oWronly ||| oRdwr) ≠ 0 then errno enotsup
  else allow

/-- With flags in the accumulator the filter comes to the verdict on them. -/
theorem exec_flagsTail {load : Nat → Option (BitVec 32)} (hn : flagsTail.length ≤ n) :
    exec load n flagsTail a = some (flagsVerdict a) := by
  refine exec_mono (n := flagsTail.length) ?_ hn
  unfold flagsTail flagsVerdict
  simp only [List.length_cons, List.length_nil, exec_jset, List.drop_succ_cons, List.drop_zero, exec_ret]
  split
  · rfl
  · split <;> rfl

theorem controlOpen_accepted (p : Platform) : check loadable (controlOpen p) = true := by
  obtain ⟨_ | arch, _ | _, _ | nr, nrOpenat⟩ := p <;> rfl

/-- **seccomp_control_open.c**: a native call is let through unless it opens a file; then its flags
    decide.  Creating is fatal, writing an error, whatever else is set. -/
theorem controlOpen_verdict (p : Platform) :
    Decides (controlOpen p) fun d =>
      if Native p d then (match openFlags p d with
        | some flags => flagsVerdict flags
        | none => allow)
      else killProcess where
  accepted := controlOpen_accepted p
  decides d := by
    by_cases hn : Native p d
    · rw [if_pos hn]
      refine openHead_native hn ?_
      have hlen : flagsTail.length = 5 := rfl
      unfold openFlags
      cases p.nrOpen with
      | none =>
        simp only [List.cons_append, List.nil_append, List.length_cons, hlen, exec_jeq,
          List.drop_succ_cons, List.drop_zero, exec_ret]
        by_cases hat : d.nr = p.nrOpenat
        · rw [if_pos hat, exec_ldAbs (load_args 2), exec_flagsTail (by omega)]
          rw [if_neg (nomatch ·), if_pos hat]
        · rw [if_neg hat, if_neg (nomatch ·), if_neg hat]
      | some nr =>
        simp only [List.cons_append, List.nil_append, List.length_cons, hlen, exec_jeq,
          List.drop_succ_cons, List.drop_zero, exec_ret]
        by_cases hopen : d.nr = nr
        · rw [if_pos hopen, exec_ldAbs (load_args 1), exec_ja]
          simp only [List.drop_succ_cons, List.drop_zero]
          rw [exec_flagsTail (by omega), if_pos (congrArg some hopen.symm)]
        · rw [if_neg hopen, if_neg (fun h => hopen (Option.some.inj h).symm)]
          by_cases hat : d.nr = p.nrOpenat
          · rw [if_pos hat, exec_ldAbs (load_args 2), exec_flagsTail (by omega), if_pos hat]
          · rw [if_neg hat, if_neg hat]
    · rw [if_neg hn]
      exact openHead_foreign hn

/-- seccomp_arg64.c. -/
def arg64 : List Insn :=
  x86Head ++
  [.jump .jeq nrLseek 1 0, .ret allow,
    .ldAbs (offsetofArgs 1 + 4), .jump .jeq 0 1 0, .ret (errno 2#32),
    .ldAbs (offsetofArgs 1), .jump .jgt 1000#32 0 1, .ret (errno 1#32),
    .ret allow]

/-- The filter that finds the upper half 0 knows that the value is its lower half. -/
theorem high_eq_zero (x : BitVec 64) : high x = 0 ↔ x.toNat < 2 ^ 32 := by
  unfold high
  rw [← BitVec.toNat_inj, BitVec.toNat_setWidth, BitVec.toNat_ushiftRight, Nat.shiftRight_eq_div_pow]
  have := x.isLt
  show x.toNat / 2 ^ 32 % 2 ^ 32 = 0 ↔ _
  omega

theorem toNat_low_of_lt {x : BitVec 64} (h : x.toNat < 2 ^ 32) : (low x).toNat = x.toNat := by
  unfold low
  rw [BitVec.toNat_setWidth, Nat.mod_eq_of_lt h]

/-- **seccomp_arg64.c**: the two halves of the offset of `lseek` are tested as the one 64-bit number
    they are: above 1000 the call fails, with error 2 if the number has more than 32 bits. -/
theorem arg64_verdict :
    Decides arg64 fun d =>
      if Native x8664 d then
        (if d.nr = nrLseek then
          (if 2 ^ 32 ≤ (d.args 1).toNat then errno 2#32
          else if 1000 < (d.args 1).toNat then errno 1#32
          else allow)
        else allow)
      else killProcess where
  accepted := by decide
  decides d := by
    by_cases hn : Native x8664 d
    · rw [if_pos hn]
      refine x86Head_native hn ?_
      simp only [List.length_cons, List.length_nil, exec_jeq, List.drop_succ_cons, List.drop_zero, exec_ret,
        exec_ldAbs (load_args_high 1), exec_ldAbs (load_args 1), exec_jgt, high_eq_zero]
      by_cases hl : d.nr = nrLseek
      · rw [if_pos hl, if_pos hl]
        by_cases h32 : (d.args 1).toNat < 2 ^ 32
        · have hlow : 1000#32 < low (d.args 1) ↔ 1000 < (d.args 1).toNat := by
            rw [BitVec.lt_def, toNat_low_of_lt h32]
            rfl
          rw [if_pos h32, if_neg (Nat.not_le.mpr h32)]
          simp only [hlow]
          split <;> rfl
        · rw [if_neg h32, if_pos (Nat.not_lt.mp h32)]
      · rw [if_neg hl, if_neg hl]
    · rw [if_neg hn]
      exact x86Head_foreign hn

/-- seccomp_perf.c. -/
def perf : List Insn :=
  x86Head ++ [.jump .jeq x8664.nrOpenat 1 0, .ret allow, .ret killProcess]

/-- seccomp_perf.c only looks for `openat`: `open` gets through. -/
theorem perf_verdict :
    Decides perf fun d =>
      if Native x8664 d ∧ d.nr ≠ x8664.nrOpenat then allow else killProcess where
  accepted := by decide
  decides d := by
    by_cases hn : Native x8664 d
    · refine x86Head_native hn ?_
      simp only [List.length_cons, List.length_nil, exec_jeq, List.drop_succ_cons, List.drop_zero, exec_ret,
        hn, true_and]
      by_cases hat : d.nr = x8664.nrOpenat
      · rw [if_pos hat, if_neg (fun h => h hat)]
      · rw [if_neg hat, if_pos hat]
    · rw [if_neg (fun h => hn h.1)]
      exact x86Head_foreign hn

/-- `mq_notify` has a number of its own under each of the three interfaces. -/
def nrMqNotifyX8664 : BitVec 32 := 244#32

def nrMqNotifyI386 : BitVec 32 := 281#32

def nrMqNotifyX32 : BitVec 32 := 527#32

/-- seccomp_multiarch.c. -/
def multiarch : List Insn :=
  [.ldAbs offsetofArch,
    .jump .jeq auditArchX8664 0 5,
    .ldAbs offsetofNr,
    .jump .jeq nrMqNotifyX8664 0 1,
    .ret (errno nrMqNotifyX8664),
    .jump .jeq (nrMqNotifyX32 + x32SyscallBit) 0 5,
    .ret (errno nrMqNotifyX32),
    .jump .jeq auditArchI386 0 4,
    .ldAbs offsetofNr,
    .jump .jeq nrMqNotifyI386 0 1,
    .ret (errno nrMqNotifyI386),
    .ret allow,
    .ret killProcess]

/-- The number of `mq_notify` under which a call of one of the three kinds asks for it; `none` for any
    other call. -/
def mqNotify (d : SeccompData) : Option (BitVec 32) :=
  if d.arch = auditArchX8664 then
    if d.nr = nrMqNotifyX8664 then some nrMqNotifyX8664
    else if d.nr = nrMqNotifyX32 + x32SyscallBit then some nrMqNotifyX32
    else none
  else if d.arch = auditArchI386 ∧ d.nr = nrMqNotifyI386 then some nrMqNotifyI386
  else none

/-- **seccomp_multiarch.c**: `mq_notify` fails with its own number as the error under each of the three
    interfaces, other calls of these get through, and no other architecture does. -/
theorem multiarch_verdict :
    Decides multiarch fun d =>
      if d.arch = auditArchX8664 ∨ d.arch = auditArchI386 then (match mqNotify d with
        | some nr => errno nr
        | none => allow)
      else killProcess where
  accepted := by decide
  decides d := by
    unfold run multiarch mqNotify
    simp only [List.length_cons, List.length_nil]
    rw [exec_ldAbs load_arch]
    simp only [exec_jeq, List.drop_succ_cons, List.drop_zero, exec_ret, exec_ldAbs load_nr]
    by_cases h64 : d.arch = auditArchX8664
    · rw [if_pos h64, if_pos (Or.inl h64), if_pos h64]
      split
      · rfl
      · split <;> rfl
    · rw [if_neg h64, if_neg h64]
      by_cases h32 : d.arch = auditArchI386
      · rw [if_pos h32, if_pos (Or.inr h32)]
        simp only [h32, true_and]
        split <;> rfl
      · rw [if_neg h32, if_neg (fun h => h.elim h64 h32)]

/-- seccomp_trap_sigsys.c: `openHead` with `SECCOMP_RET_KILL` for a wrong architecture. -/
def trapSigsys : List Insn :=
  [.ldAbs offsetofArch, .jump .jeq auditArchX8664 1 0, .ret killThread,
    .ldAbs offsetofNr, .jump .jge x32SyscallBit 0 1, .ret killProcess,
    .jump .jeq nrGetppid 0 1, .ret trap, .ret allow]

/-- **seccomp_trap_sigsys.c**: a foreign architecture kills the thread only, the x32 bit the process. -/
theorem trapSigsys_verdict :
    Decides trapSigsys fun d =>
      if d.arch = auditArchX8664 then
        (if x32SyscallBit ≤ d.nr then killProcess
        else if d.nr = nrGetppid then trap
        else allow)
      else killThread where
  accepted := by decide
  decides d := by
    unfold run trapSigsys
    simp only [List.length_cons, List.length_nil]
    rw [exec_ldAbs load_arch]
    simp only [exec_jeq, exec_jge, List.drop_succ_cons, List.drop_zero, exec_ret, exec_ldAbs load_nr]
    by_cases h64 : d.arch = auditArchX8664
    · rw [if_pos h64, if_pos h64]
      split
      · rfl
      · split <;> rfl
    · rw [if_neg h64, if_neg h64]

/-- seccomp_deny_syscall.c, for the number of its command line. -/
def denySyscall (syscallNum : BitVec 32) : List Insn :=
  [.ldAbs offsetofNr, .jump .jeq syscallNum 1 0, .ret allow, .ret killProcess]

/-- Without the check of the architecture the filter denies a number, not a system call. -/
theorem denySyscall_verdict (syscallNum : BitVec 32) :
    Decides (denySyscall syscallNum) fun d =>
      if d.nr = syscallNum then killProcess else allow where
  accepted := rfl
  decides d := by
    unfold run denySyscall
    simp only [List.length_cons, List.length_nil]
    rw [exec_ldAbs load_nr]
    simp only [exec_jeq, List.drop_succ_cons, List.drop_zero, exec_ret]
    split <;> rfl

/-! ## seccomp_bench.c -/

/-- The instruction named on the command line; another letter ends the program. -/
def instruction : Char → Option Insn
  | 'a' => some (.add 1)
  | 'j' => some (.jump .jeq 0 0 0)
  | 'l' => some (.ldAbs 0)
  | _ => none

/-- `create_filter`: `icnt` copies of the instruction and a return.  The length of a `sock_fprog` is an
    unsigned short, and the kernel sees no more than that.  The count, an `int` of `atoi`, is taken
    not to be negative. -/
def createFilter (instr : Char) (icnt : Nat) : Option (List Insn) :=
  (instruction instr).map fun i => (List.replicate icnt i ++ [Insn.ret allow]).take ((icnt + 1) % 2 ^ 16)

/-- One of the three instructions has no effect on where the program goes. -/
theorem exec_instruction {instr : Char} {i : Insn} (hi : instruction instr = some i)
    (rest : List Insn) (a : BitVec 32) :
    ∃ a', exec d.load (n + 1) (i :: rest) a = exec d.load n rest a' := by
  unfold instruction at hi
  split at hi
  · cases hi
    exact ⟨a + 1, rfl⟩
  · cases hi
    refine ⟨a, ?_⟩
    rw [exec_jeq, List.drop_zero, ite_self]
  · cases hi
    exact ⟨d.nr, exec_ldAbs load_nr⟩
  · cases hi

/-- However many there are, the program comes to its return. -/
theorem exec_replicate {instr : Char} {i : Insn} (hi : instruction instr = some i) (icnt : Nat)
    (a : BitVec 32) : exec d.load (icnt + 1) (List.replicate icnt i ++ [Insn.ret v]) a = some v := by
  induction icnt generalizing a with
  | zero => rfl
  | succ icnt ih =>
    obtain ⟨a', ha⟩ := exec_instruction (d := d) (n := icnt + 1) hi
      (List.replicate icnt i ++ [Insn.ret v]) a
    rw [List.replicate_succ, List.cons_append, ha]
    exact ih a'

/-- Nor does it matter to the test of the kernel. -/
theorem sound_cons_instruction {instr : Char} {i : Insn} (hi : instruction instr = some i) :
    sound loadable (i :: rest) = sound loadable rest := by
  unfold instruction at hi
  split at hi
  · cases hi
    rfl
  · cases hi
    show (decide (0 < rest.length) && decide (0 < rest.length) && sound loadable rest) = _
    cases rest with
    | nil => rfl
    | cons j rest => simp
  · cases hi
    rfl
  · cases hi

theorem sound_replicate {instr : Char} {i : Insn} (hi : instruction instr = some i) (icnt : Nat) :
    sound loadable (List.replicate icnt i ++ rest) = sound loadable rest := by
  induction icnt with
  | zero => rfl
  | succ icnt ih => rw [List.replicate_succ, List.cons_append, sound_cons_instruction hi, ih]

/-- **seccomp_bench.c**: the kernel takes the filter if there are fewer than 4096 instructions before
    the return, not otherwise (also where the length wraps round and only a piece of the filter is
    seen).  The calls that are timed get through any number of copies of it. -/
theorem createFilter_bench {instr : Char} {icnt : Nat} {filter : List Insn}
    (h : createFilter instr icnt = some filter) :
    (check loadable filter = true ↔ icnt < 4096)
      ∧ (icnt < 4096 → ∀ (d : SeccompData) nfilters,
          runFilters d.load (List.replicate nfilters filter) = some allow) := by
  obtain ⟨i, hi, hf⟩ := Option.map_eq_some_iff.mp h
  have hlen : (List.replicate icnt i ++ [Insn.ret allow]).length = icnt + 1 := by simp
  by_cases hsmall : icnt + 1 < 2 ^ 16
  · have hwhole : filter = List.replicate icnt i ++ [.ret allow] := by
      rw [← hf, Nat.mod_eq_of_lt hsmall, ← hlen, List.take_length]
    refine ⟨?_, fun _ d nfilters => runFilters_allow fun f hfm => ?_⟩
    · rw [check, hwhole, hlen, sound_replicate hi, Bool.and_eq_true_iff]
      exact ⟨fun h => of_decide_eq_true h.1, fun h => ⟨decide_eq_true h, rfl⟩⟩
    · rw [(List.mem_replicate.mp hfm).2, hwhole, run, hlen]
      exact exec_replicate hi icnt 0
  · -- the length has wrapped round: what is seen has no return
    have hpiece : filter = List.replicate ((icnt + 1) % 2 ^ 16) i ++ [] := by
      have hle : (icnt + 1) % 2 ^ 16 ≤ icnt := by omega
      rw [← hf, List.take_append_of_le_length (by rw [List.length_replicate]; exact hle),
        List.take_replicate, Nat.min_eq_left hle, List.append_nil]
    refine ⟨⟨fun hc => ?_, fun h => by omega⟩, fun h => by omega⟩
    rw [check, hpiece, sound_replicate hi, Bool.and_eq_true_iff] at hc
    nomatch hc.2

/-- Three jumps to the next instruction. -/
theorem createFilter_bench_jumps :
    check loadable (List.replicate 3 (.jump .jeq 0 0 0) ++ [.ret allow]) = true := by
  have h : createFilter 'j' 3 = some (List.replicate 3 (.jump .jeq 0 0 0) ++ [.ret allow]) := by decide
  exact (createFilter_bench h).1.mpr (by decide)

end LinuxInterface.Seccomp
