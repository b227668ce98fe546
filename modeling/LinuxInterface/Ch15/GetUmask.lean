/-
  ch15/5_get_umask.c: the umask is read by setting it.

  1. **The program** — `get_current_umask` is two calls of `umask`, and the umask belongs to the
     process.  Threads call the function and create files in any order.

  2. **Who has the original umask** — the process, a thread that is about to restore it, or nobody
     (`At`).  A thread that has read 0 from under another call restores that 0 over the original;
     from then on nobody has it, and every call returns 0: `get_current_umask_threads`.

  3. **One call at a time** — where no call begins during another, every call returns the umask and
     leaves it as it was: `get_current_umask_alone`.
-/
import LinuxInterface.Base.Interleave
import Mathlib.Data.Fintype.Defs

namespace LinuxInterface.GetUmask

open LinuxInterface

/-- `mode_t`. -/
abbrev Mode := BitVec 32

/-- `umask(mask)`: the old umask is returned, and only permission bits are set. -/
def umask (mask cur : Mode) : Mode × Mode := (cur, mask &&& 0o777)

/-- Where a thread is: outside `get_current_umask`, or between its two calls. -/
inductive Pc where
  | outside | restore (old_umask : Mode)
  deriving DecidableEq

/-- A thread, with what its calls returned and the files it created: the mode it asked for and the
    permissions the file got. -/
structure Local where
  pc : Pc
  returned : List Mode
  created : List (Mode × Mode)
  deriving DecidableEq

inductive Act where
  | call | create (mode : Mode)
  deriving DecidableEq

variable {ι : Type}

/-- One step of a thread. -/
def thread (_ : ι) (a : Act) (l : Local) (cur : Mode) : Option (Local × Mode) :=
  match a, l.pc with
  | .call, .outside => some ({ l with pc := .restore (umask 0 cur).1 }, (umask 0 cur).2)
  | .call, .restore old_umask =>
    some ({ l with pc := .outside, returned := old_umask :: l.returned }, (umask old_umask cur).2)
  | .create mode, .outside => some ({ l with created := (mode, mode &&& ~~~cur) :: l.created }, cur)
  | .create _, .restore _ => none

abbrev step [DecidableEq ι] (p : Pool ι Local Mode) (c : ι × Act) : Option (Pool ι Local Mode) :=
  p.step thread c

/-- The process has the umask `m`. -/
def start (ι : Type) (m : Mode) : Pool ι Local Mode := ⟨fun _ => ⟨.outside, [], []⟩, m⟩

/-- No call begins while another thread is between its two. -/
def Alone (p : Pool ι Local Mode) (c : ι × Act) : Prop :=
  c.2 = .call → (p.locals c.1).pc = .outside → ∀ j, (p.locals j).pc = .outside

instance [Fintype ι] (p : Pool ι Local Mode) (c : ι × Act) : Decidable (Alone p c) :=
  inferInstanceAs (Decidable (_ → _ → _))

/-! ## Who has the original umask -/

inductive Holder (ι : Type) where
  | process | thread (i : ι) | nobody
  deriving DecidableEq

/-- What a call does to it: it goes to the thread that reads it and comes back with its restore, and
    the restore of another thread destroys what the process has. -/
def Holder.move [DecidableEq ι] (w : Holder ι) (i : ι) : Pc → Holder ι
  | .outside => if w = .process then .thread i else w
  | .restore _ => if w = .thread i then .process else if w = .process then .nobody else w

variable {m : Mode} {w : Holder ι} {p p' : Pool ι Local Mode}

/-- What one thread has, when `w` has the original umask `m`. -/
structure Sees [DecidableEq ι] (m : Mode) (w : Holder ι) (i : ι) (l : Local) : Prop where
  old : ∀ old, l.pc = .restore old → old = if w = .thread i then m else 0
  holder : w = .thread i → l.pc = .restore m
  returned : ∀ v ∈ l.returned, v = 0 ∨ v = m
  created : ∀ f ∈ l.created, f.2 = f.1 ∨ f.2 = f.1 &&& ~~~m

/-- `w` has the original umask: the process has it or 0, and so has every thread. -/
structure At [DecidableEq ι] (m : Mode) (w : Holder ι) (p : Pool ι Local Mode) : Prop where
  umask : p.shared = if w = .process then m else 0
  sees : ∀ i, Sees m w i (p.locals i)

section Threads

variable [DecidableEq ι]

theorem at_start (m : Mode) : At m .process (start ι m) :=
  ⟨(if_pos rfl).symm, fun _ => ⟨nofun, nofun, nofun, nofun⟩⟩

/-- A call does not give it to another thread, nor take it from one. -/
theorem Holder.move_other {i j : ι} (hj : j ≠ i) (pc : Pc) :
    w.move i pc = .thread j ↔ w = .thread j := by
  cases w <;> cases pc <;> grind [Holder.move]

/-- After `umask(0)` the process does not have it. -/
theorem Holder.move_outside_ne (w : Holder ι) (i : ι) : w.move i .outside ≠ .process := by
  cases w <;> simp [Holder.move]

/-- A thread that did not have it gets it from the process. -/
theorem Holder.move_outside_iff {i : ι} (hw : w ≠ .thread i) :
    w.move i .outside = .thread i ↔ w = .process := by
  cases w <;> grind [Holder.move]

/-- After its restore a thread does not have it. -/
theorem Holder.move_restore_ne (w : Holder ι) (i : ι) (old : Mode) :
    w.move i (.restore old) ≠ .thread i := by
  cases w <;> grind [Holder.move]

/-- The process has it after the restore of the thread that had it, and of no other. -/
theorem Holder.move_restore_iff {i : ι} {old : Mode} :
    w.move i (.restore old) = .process ↔ w = .thread i := by
  cases w <;> grind [Holder.move]

/-- The threads that did not take the step see the same. -/
theorem Sees.other {i j : ι} {l : Local} {pc : Pc} (h : Sees m w j l) (hj : j ≠ i) :
    Sees m (w.move i pc) j l := by
  have hiff := Holder.move_other (w := w) hj pc
  refine ⟨fun old hold => ?_, fun hw => h.holder (hiff.mp hw), h.returned, h.created⟩
  rw [h.old old hold]
  exact if_congr hiff.symm rfl rfl

/-- **One step.**  The original umask moves as `Holder.move` says, and files get the permissions of
    one of the two umasks. -/
theorem At.step {i : ι} {a : Act} (hm : m &&& 0o777 = m) (h : At m w p)
    (hstep : GetUmask.step p (i, a) = some p') :
    (a = .call ∧ At m (w.move i (p.locals i).pc) p') ∨ (∃ mode, a = .create mode ∧ At m w p') := by
  obtain ⟨l', cur', hthr, rfl⟩ := Pool.step_eq hstep
  have hi := h.sees i
  have hcur := h.umask
  dsimp only at hthr
  unfold thread at hthr
  cases a with
  | call =>
    refine Or.inl ⟨rfl, ?_⟩
    cases hpc : (p.locals i).pc with
    | outside =>
      rw [hpc] at hthr
      cases hthr
      -- who has it now is not this thread
      have hnot : w ≠ .thread i := by
        intro hw
        have := hi.holder hw
        rw [hpc] at this
        nomatch this
      refine ⟨?_, forall_update (J := fun j l => Sees m (w.move i .outside) j l) ?_
        fun j hj => (h.sees j).other hj⟩
      · rw [if_neg (w.move_outside_ne i)]
        exact BitVec.zero_and
      · have hold : p.shared = if w.move i .outside = .thread i then m else 0 := by
          rw [hcur]
          exact if_congr (Holder.move_outside_iff hnot).symm rfl rfl
        refine ⟨?_, ?_, hi.returned, hi.created⟩
        · intro old h
          rw [← hold]
          exact (Pc.restore.inj h).symm
        · intro hw
          rw [if_pos hw] at hold
          exact congrArg Pc.restore hold
    | restore old =>
      rw [hpc] at hthr
      cases hthr
      have hold := hi.old old hpc
      refine ⟨?_, forall_update (J := fun j l => Sees m (w.move i (.restore old)) j l) ?_
        fun j hj => (h.sees j).other hj⟩
      · show old &&& 0o777 = _
        by_cases hw : w = .thread i
        · rw [if_pos hw] at hold
          rw [if_pos (Holder.move_restore_iff.mpr hw), hold]
          exact hm
        · -- what this thread read was 0, and it writes it over whatever there is
          rw [if_neg hw] at hold
          rw [if_neg (mt Holder.move_restore_iff.mp hw), hold]
          exact BitVec.zero_and
      · refine ⟨nofun, fun hw => absurd hw (w.move_restore_ne i old), ?_, hi.created⟩
        intro v hv
        rcases List.mem_cons.mp hv with rfl | hv
        · rw [hold]
          split
          · exact Or.inr rfl
          · exact Or.inl rfl
        · exact hi.returned v hv
  | create mode =>
    refine Or.inr ⟨mode, rfl, ?_⟩
    cases hpc : (p.locals i).pc with
    | outside =>
      rw [hpc] at hthr
      cases hthr
      refine ⟨hcur, forall_update (J := fun j l => Sees m w j l) ?_ fun j _ => h.sees j⟩
      refine ⟨nofun, fun hw => ?_, hi.returned, ?_⟩
      · have := hi.holder hw
        rw [hpc] at this
        nomatch this
      intro f hf
      rcases List.mem_cons.mp hf with rfl | hf
      · show mode &&& ~~~p.shared = mode ∨ mode &&& ~~~p.shared = mode &&& ~~~m
        rw [hcur]
        split
        · exact Or.inr rfl
        · exact Or.inl BitVec.and_allOnes
      · exact hi.created f hf
    | restore old =>
      rw [hpc] at hthr
      nomatch hthr

/-- After a step somebody or nobody has the original umask, and what nobody has, nobody gets. -/
theorem At.next {c : ι × Act} (hm : m &&& 0o777 = m) (h : At m w p)
    (hstep : GetUmask.step p c = some p') : ∃ w', At m w' p' ∧ (w = .nobody → w' = .nobody) := by
  obtain ⟨i, a⟩ := c
  rcases h.step hm hstep with ⟨-, h'⟩ | ⟨mode, -, h'⟩
  · refine ⟨_, h', ?_⟩
    rintro rfl
    cases (p.locals i).pc <;> rfl
  · exact ⟨w, h', id⟩

/-- What the calls of every thread returned from `p` to `q` was 0. -/
def ReturnsZero (p q : Pool ι Local Mode) : Prop :=
  ∀ i, ∃ new, (q.locals i).returned = new ++ (p.locals i).returned ∧ ∀ v ∈ new, v = 0

/-- One more step. -/
theorem ReturnsZero.step {q q' : Pool ι Local Mode} {c : ι × Act} (h : ReturnsZero p q)
    (hat : At m .nobody q) (hstep : GetUmask.step q c = some q') : ReturnsZero p q' := by
  obtain ⟨i, a⟩ := c
  obtain ⟨l', cur', hthr, rfl⟩ := Pool.step_eq hstep
  have hold := (hat.sees i).old
  refine forall_update
    (J := fun j (l : Local) => ∃ new, l.returned = new ++ (p.locals j).returned ∧ ∀ v ∈ new, v = 0) ?_
    fun j _ => h j
  obtain ⟨new, hnew, hzero⟩ := h i
  dsimp only at hthr
  unfold thread at hthr
  split at hthr
  · cases hthr
    exact ⟨new, hnew, hzero⟩
  · rename_i old hpc
    cases hthr
    refine ⟨old :: new, congrArg (old :: ·) hnew, ?_⟩
    exact List.forall_mem_cons.mpr ⟨hold old hpc, hzero⟩
  · cases hthr
    exact ⟨new, hnew, hzero⟩
  · nomatch hthr

/-- **Threads that ask for the umask at the same time.**  At every moment one place has the original
    umask and every other one has 0, or nobody has it any more: then it is lost for the rest of
    the run, and every call that returns from then on returns 0. -/
theorem get_current_umask_threads (hm : m &&& 0o777 = m) (h : Reach GetUmask.step Any (start ι m) p) :
    ∃ w, At m w p ∧ (w = .nobody → ∀ q, Reach GetUmask.step Any p q →
      At m .nobody q ∧ ReturnsZero p q) := by
  have hat : ∃ w, At m w p := by
    apply h.inv ⟨.process, at_start m⟩
    rintro s c s' ⟨w, hw⟩ - hstep
    obtain ⟨w', hw', -⟩ := hw.next hm hstep
    exact ⟨w', hw'⟩
  obtain ⟨w, hw⟩ := hat
  refine ⟨w, hw, ?_⟩
  rintro rfl q hq
  apply hq.inv
  · exact ⟨hw, fun i => ⟨[], rfl, nofun⟩⟩
  · rintro s c s' ⟨hs, hzero⟩ - hstep
    obtain ⟨w', hw', hnobody⟩ := hs.next hm hstep
    rw [hnobody rfl] at hw'
    exact ⟨hw', hzero.step hs hstep⟩

end Threads

/-- Two calls that overlap: the second reads 0 and restores it last.  The umask 022 is gone, and a
    file that is created then has every permission asked for. -/
theorem get_current_umask_threads_lost : ∃ p : Pool Bool Local Mode,
    (p.locals false).created = [(0o666, 0o666)] ∧ p.shared = 0 ∧
      ∃ w, At 0o22 w p ∧ (w = .nobody → ∀ q, Reach GetUmask.step Any p q →
        At 0o22 .nobody q ∧ ReturnsZero p q) := by
  have hrun : (runList GetUmask.step Any (start Bool 0o22)
      [(false, .call), (true, .call), (false, .call), (true, .call), (false, .create 0o666)]).map
        (fun p => ((p.locals false).created, p.shared)) = some ([(0o666, 0o666)], 0) := by decide +kernel
  obtain ⟨p, hp, hobs⟩ := Reach.of_observed hrun
  obtain ⟨hcreated, hcur⟩ := Prod.mk.inj hobs
  exact ⟨p, hcreated, hcur, get_current_umask_threads (by decide) hp⟩

/-! ## One call at a time -/

section OneCall

variable [DecidableEq ι]

/-- Every call so far returned `m`, and a thread is between its calls only if it has `m`. -/
structure Kept (m : Mode) (p : Pool ι Local Mode) : Prop where
  returned : ∀ i, ∀ v ∈ (p.locals i).returned, v = m
  place : (p.shared = m ∧ ∀ i, (p.locals i).pc = .outside) ∨
    ∃ i, (p.locals i).pc = .restore m ∧ ∀ j, j ≠ i → (p.locals j).pc = .outside

/-- **One step.** -/
theorem Kept.step {c : ι × Act} (hm : m &&& 0o777 = m) (h : Kept m p) (hG : Alone p c)
    (hstep : GetUmask.step p c = some p') : Kept m p' := by
  obtain ⟨i, a⟩ := c
  obtain ⟨l', cur', hthr, rfl⟩ := Pool.step_eq hstep
  dsimp only at hthr
  unfold thread at hthr
  split at hthr
  · -- the first call of `umask`: nobody else is inside, so the process has `m`
    rename_i hpc
    cases hthr
    have hout := hG rfl hpc
    have hcur : p.shared = m := by
      rcases h.place with ⟨hcur, -⟩ | ⟨j, hj, -⟩
      · exact hcur
      · rw [hout j] at hj
        nomatch hj
    refine ⟨forall_update (J := fun _ (l : Local) => ∀ v ∈ l.returned, v = m) (h.returned i)
      fun j _ => h.returned j, Or.inr ⟨i, ?_, ?_⟩⟩
    · show (Function.update p.locals i _ i).pc = _
      rw [Function.update_self]
      exact congrArg Pc.restore hcur
    · intro j hj
      show (Function.update p.locals i _ j).pc = _
      rw [Function.update_of_ne hj]
      exact hout j
  · -- the second
    rename_i old hpc
    cases hthr
    have hplace : old = m ∧ ∀ j, j ≠ i → (p.locals j).pc = .outside := by
      rcases h.place with ⟨-, hout⟩ | ⟨k, hk, hother⟩
      · rw [hout i] at hpc
        nomatch hpc
      · have hik : i = k := by
          by_contra hne
          rw [hother i hne] at hpc
          nomatch hpc
        subst hik
        rw [hk] at hpc
        exact ⟨(Pc.restore.inj hpc).symm, hother⟩
    obtain ⟨rfl, hother⟩ := hplace
    refine ⟨forall_update (J := fun _ (l : Local) => ∀ v ∈ l.returned, v = old)
      (List.forall_mem_cons.mpr ⟨rfl, h.returned i⟩) fun j _ => h.returned j, Or.inl ⟨hm, ?_⟩⟩
    exact forall_update (J := fun _ (l : Local) => l.pc = .outside) rfl hother
  · rename_i hpc
    cases hthr
    refine ⟨forall_update (J := fun _ (l : Local) => ∀ v ∈ l.returned, v = m) (h.returned i)
      fun j _ => h.returned j, ?_⟩
    rcases h.place with ⟨hcur, hout⟩ | ⟨k, hk, hother⟩
    · exact Or.inl ⟨hcur, forall_update (J := fun _ (l : Local) => l.pc = .outside) (hout i) fun j _ => hout j⟩
    · have hne : k ≠ i := by
        rintro rfl
        rw [hk] at hpc
        nomatch hpc
      refine Or.inr ⟨k, ?_, ?_⟩
      · show (Function.update p.locals i _ k).pc = _
        rw [Function.update_of_ne hne]
        exact hk
      · exact forall_update (J := fun j (l : Local) => j ≠ k → l.pc = .outside) (hother i) fun j _ => hother j
  · nomatch hthr

/-- **Calls that do not overlap** return the umask, and leave it. -/
theorem get_current_umask_alone (hm : m &&& 0o777 = m) (h : Reach GetUmask.step Alone (start ι m) p) :
    (∀ i, ∀ v ∈ (p.locals i).returned, v = m) ∧ ((∀ i, (p.locals i).pc = .outside) → p.shared = m) := by
  have hkept : Kept m p := by
    apply h.inv (I := Kept m)
    · exact ⟨fun _ => nofun, Or.inl ⟨rfl, fun _ => rfl⟩⟩
    · intro s c s' hs hG hstep
      exact hs.step hm hG hstep
  refine ⟨hkept.returned, fun hout => ?_⟩
  rcases hkept.place with ⟨hcur, -⟩ | ⟨i, hi, -⟩
  · exact hcur
  · rw [hout i] at hi
    nomatch hi

end OneCall

end LinuxInterface.GetUmask
