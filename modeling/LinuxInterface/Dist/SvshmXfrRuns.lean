/-
  Whole runs of the transfer through shared memory: safety, and that it comes to an end.

  1. **Safety** — `transfer_safe`, read off the assertions of `LinuxInterface.Dist.SvshmXfr`.

  2. **The measure** — the bytes not yet read, where each process is, and what the semaphores still
     allow.  A block is paid for by the bytes that were read for it, a turn by the semaphore that
     was taken (`measure_step`).

  3. **No deadlock** — in every reachable state somebody can go on, unless both have finished or one
     has given up (`Inv.progress`).

  4. **The end** — `transfer_total`.
-/
import LinuxInterface.Dist.SvshmXfr

namespace LinuxInterface.SvshmXfr

open LinuxInterface

/-! ## Safety -/

/-- Between `reserveSem(semid, WRITE_SEM)` and `releaseSem(semid, READ_SEM)`, or after the last
    `reserveSem`. -/
def WriterPc.inside : WriterPc → Bool
  | .read | .store _ | .check | .release | .rmSem | .shmdt | .rmShm => true
  | _ => false

/-- Between `reserveSem(semid, READ_SEM)` and `releaseSem(semid, WRITE_SEM)`. -/
def ReaderPc.inside : ReaderPc → Bool
  | .test | .add | .write | .compare _ | .release | .shmdt | .finalRelease => true
  | _ => false

/-- The writer's next step is an access to the segment. -/
def WriterPc.touches : WriterPc → Bool
  | .read | .store _ | .check | .test | .next => true
  | _ => false

/-- The reader's next step is an access to the segment. -/
def ReaderPc.touches : ReaderPc → Bool
  | .test | .add | .write | .compare _ => true
  | _ => false

/-- The reader has made its last `releaseSem`. -/
def ReaderPc.finished : ReaderPc → Bool
  | .report | .exited => true
  | _ => false

section Safety

variable {inp : List UInt8} {g : Ghost} {k : Shared} {r : Proc ReaderPc} {w : Proc WriterPc}

theorem WriterOk.turn_of_inside (h : WriterOk inp g k w) (hin : w.pc.inside = true) :
    g.turn = .writer ∨ g.turn = .closing := by
  obtain ⟨pc, dead, xfrs, bytes⟩ := w
  cases pc with
  | read => exact Or.inl h.1
  | store n => exact Or.inl h.1
  | check => exact Or.inl h.1
  | release => exact Or.inl h.1.1
  | rmSem => exact Or.inr h.1.1
  | shmdt => exact Or.inr h.1.1
  | rmShm => exact Or.inr h.1.1
  | _ => nomatch hin

theorem ReaderOk.turn_of_inside (h : ReaderOk inp g k r) (hin : r.pc.inside = true) :
    g.turn = .reader := by
  obtain ⟨pc, dead, xfrs, bytes⟩ := r
  cases pc with
  | test => exact h.1
  | add => exact h.1.1
  | write => exact h.1.1
  | compare n => exact h.1.1
  | release => exact h.1.1
  | shmdt => exact h.1
  | finalRelease => exact h.1
  | _ => nomatch hin

theorem Empty.output_begins (h : Empty inp k) : k.output <+: inp := ⟨k.input, h⟩

theorem Full.output_begins {n : Int} (h : Full inp k n) : k.output <+: inp :=
  ⟨_, (List.append_assoc ..).symm.trans h.bytes⟩

/-- In the writer's turn. -/
theorem WriterOk.output_begins (h : WriterOk inp g k w) (hturn : g.turn = .writer) :
    k.output <+: inp := by
  have hne : ∀ t, t ≠ .writer → g.turn ≠ t := fun t ht h => ht (h.symm.trans hturn)
  have hhand : ∀ n, InHand inp g k w n → k.output <+: inp := by
    rintro n ⟨-, -, -, ⟨-, hempty⟩ | ⟨hfull, -⟩⟩
    · exact hempty.output_begins
    · exact hfull.output_begins
  have hpassed : ¬ Passed inp g k w := by
    rintro ⟨ht | ht | ht, -⟩
    · exact hne _ (by decide) ht
    · exact hne _ (by decide) ht
    · exact hne _ (by decide) ht
  obtain ⟨pc, dead, xfrs, bytes⟩ := w
  cases pc with
  | semget => exact absurd h.1 (hne _ (by decide))
  | initWrite => exact absurd h.1 (hne _ (by decide))
  | initRead => exact absurd h.1 (hne _ (by decide))
  | shmget => exact absurd h.1 (hne _ (by decide))
  | shmat => exact absurd h.1 (hne _ (by decide))
  | reserve =>
    rcases h.1 with ht | ht | ht
    · exact absurd ht (hne _ (by decide))
    · exact absurd ht (hne _ (by decide))
    · exact absurd ht (hne _ (by decide))
  | read => exact h.2.2.output_begins
  | store n => exact hhand n h
  | check => exact hhand _ h
  | release => exact hhand _ h.1
  | test => exact absurd h.1 hpassed
  | next => exact absurd h.1 hpassed
  | finalReserve => exact absurd h.1 hpassed
  | rmSem => exact absurd h.1.1 (hne _ (by decide))
  | shmdt => exact absurd h.1.1 (hne _ (by decide))
  | rmShm => exact absurd h.1.1 (hne _ (by decide))
  | report => exact absurd h.1.1 (hne _ (by decide))
  | exited => exact absurd h.1.1 (hne _ (by decide))

/-- In the reader's turn. -/
theorem ReaderOk.output_begins (h : ReaderOk inp g k r) (hturn : g.turn = .reader) :
    k.output <+: inp := by
  have hwait : ¬ Waiting g k r := by
    rintro ⟨ht | ⟨ht, -⟩ | ht | ht, -⟩
    · exact absurd (hturn.symm.trans ht) (by decide)
    · exact absurd (hturn.symm.trans ht) (by decide)
    · exact absurd (hturn.symm.trans ht) (by decide)
    · exact absurd (hturn.symm.trans ht) (by decide)
  obtain ⟨pc, dead, xfrs, bytes⟩ := r
  cases pc with
  | semget => exact absurd h hwait
  | shmget => exact absurd h hwait
  | shmat => exact absurd h.1 hwait
  | reserve => exact absurd h.1 hwait
  | test => exact h.2.1.output_begins
  | add => exact h.2.1.output_begins
  | write => exact h.2.1.output_begins
  | compare n => exact h.2.1
  | release => exact h.2.1.output_begins
  | shmdt => exact h.2.2.1.output_begins
  | finalRelease => exact h.2.2.1.output_begins
  | report =>
    rcases h.1 with ht | ht
    · exact absurd (hturn.symm.trans ht) (by decide)
    · exact absurd (hturn.symm.trans ht) (by decide)
  | exited =>
    rcases h.1 with ht | ht
    · exact absurd (hturn.symm.trans ht) (by decide)
    · exact absurd (hturn.symm.trans ht) (by decide)

theorem Inv.output_begins (h : Inv inp g ⟨w, r, k⟩) : k.output <+: inp := by
  have hk := h.shared
  rw [SharedOk] at hk
  cases hturn : g.turn with
  | setup => rw [hturn] at hk; exact hk.2.output_begins
  | toWriter => rw [hturn] at hk; exact hk.2.2.1.output_begins
  | writer => exact h.writer.output_begins hturn
  | toReader => rw [hturn] at hk; exact hk.2.2.1.output_begins
  | reader => exact h.reader.output_begins hturn
  | closing => rw [hturn] at hk; exact hk.1.output_begins

theorem ReaderOk.received (h : ReaderOk inp g k r) (hfin : r.pc.finished = true) :
    (g.turn = .toWriter ∨ g.turn = .closing) ∧ Received g k r := by
  obtain ⟨pc, dead, xfrs, bytes⟩ := r
  cases pc with
  | report => exact h
  | exited => exact h
  | _ => nomatch hfin

/-- The reader has finished. -/
theorem Inv.output_eq (h : Inv inp g ⟨w, r, k⟩) (hfin : r.pc.finished = true) : k.output = inp := by
  have hk := h.shared
  obtain ⟨hturn, hfin, -⟩ := h.reader.received hfin
  rw [SharedOk] at hk
  have hempty : Empty inp k ∧ k.input = [] := by
    rcases hturn with ht | ht
    · rw [ht] at hk
      exact ⟨hk.2.2.1, hk.2.2.2 hfin⟩
    · rw [ht] at hk
      exact hk
  obtain ⟨hempty, hin⟩ := hempty
  rw [Empty, hin, List.append_nil] at hempty
  exact hempty

/-- While the set and the segment are removed, and after that, the reader has finished. -/
theorem ReaderOk.finished_of_closing (h : ReaderOk inp g k r) (hturn : g.turn = .closing) :
    r.pc.finished = true := by
  have hne : ∀ t, t ≠ .closing → g.turn ≠ t := fun t ht h => ht (h.symm.trans hturn)
  have hwait : ¬ Waiting g k r := by
    rintro ⟨ht | ⟨ht, -⟩ | ht | ht, -⟩
    · exact hne _ (by decide) ht
    · exact hne _ (by decide) ht
    · exact hne _ (by decide) ht
    · exact hne _ (by decide) ht
  obtain ⟨pc, dead, xfrs, bytes⟩ := r
  cases pc with
  | semget => exact absurd h hwait
  | shmget => exact absurd h hwait
  | shmat => exact absurd h.1 hwait
  | reserve => exact absurd h.1 hwait
  | test => exact absurd h.1 (hne _ (by decide))
  | add => exact absurd h.1.1 (hne _ (by decide))
  | write => exact absurd h.1.1 (hne _ (by decide))
  | compare n => exact absurd h.1.1 (hne _ (by decide))
  | release => exact absurd h.1.1 (hne _ (by decide))
  | shmdt => exact absurd h.1 (hne _ (by decide))
  | finalRelease => exact absurd h.1 (hne _ (by decide))
  | report => rfl
  | exited => rfl

/-- The two never have the turn together. -/
theorem Inv.exclusive (h : Inv inp g ⟨w, r, k⟩) : ¬ (w.pc.inside = true ∧ r.pc.inside = true) := by
  rintro ⟨hw, hr⟩
  have hreader := h.reader.turn_of_inside hr
  rcases h.writer.turn_of_inside hw with ht | ht
  · exact absurd (ht.symm.trans hreader) (by decide)
  · exact absurd (ht.symm.trans hreader) (by decide)

/-- Behind its `releaseSem` the writer reads `cnt`, and nothing else. -/
theorem WriterPc.reads_cnt {pc : WriterPc} (h : pc.touches = true) (hout : pc.inside = false) :
    pc = .test ∨ pc = .next := by
  cases pc with
  | test => exact Or.inl rfl
  | next => exact Or.inr rfl
  | read => nomatch hout
  | store n => nomatch hout
  | check => nomatch hout
  | _ => nomatch h

theorem ReaderPc.inside_of_touches {pc : ReaderPc} (h : pc.touches = true) : pc.inside = true := by
  cases pc with
  | test => rfl
  | add => rfl
  | write => rfl
  | compare n => rfl
  | _ => nomatch h

end Safety

/-- **The transfer is safe.**  In every order of the steps, and whatever the kernel answers: the
    two processes never have the turn together, and if both are about to use the segment, the
    writer only reads `cnt`; what the reader has written is a beginning of what the writer was
    given, all of it once the reader has made its last `releaseSem`; and when the writer has exited,
    the reader has done that, and both report the same numbers of bytes (modulo 2^32) and of
    transfers. -/
theorem transfer_safe {bufSize : Nat} {fresh : SemVals} {inp : List UInt8} {s : State}
    (h : Reach (step bufSize fresh) Any (start inp) s) :
    ¬ (s.w.pc.inside = true ∧ s.r.pc.inside = true) ∧
      (s.w.pc.touches = true → s.r.pc.touches = true → s.w.pc = .test ∨ s.w.pc = .next) ∧
      s.k.output <+: inp ∧ (s.r.pc.finished = true → s.k.output = inp) ∧
      (s.w.pc = .exited → s.r.pc.finished = true ∧ s.w.bytes = BitVec.ofNat 32 inp.length ∧
        s.r.bytes = s.w.bytes ∧ s.r.xfrs = s.w.xfrs) := by
  obtain ⟨g, hinv⟩ := inv_of_reach h
  obtain ⟨w, r, k⟩ := s
  refine ⟨hinv.exclusive, fun hw hr => ?_, hinv.output_begins, hinv.output_eq, fun hexit => ?_⟩
  · refine WriterPc.reads_cnt hw (Bool.eq_false_iff.mpr fun hin => ?_)
    exact hinv.exclusive ⟨hin, ReaderPc.inside_of_touches hr⟩
  · have hw := hinv.writer
    rw [WriterOk, hexit] at hw
    obtain ⟨⟨hturn, -, hx, hb⟩, -⟩ := hw
    have hfin := hinv.reader.finished_of_closing hturn
    obtain ⟨-, -, hrb, hrx⟩ := hinv.reader.received hfin
    have hout : k.output = inp := hinv.output_eq hfin
    have hrb : r.bytes = BitVec.ofNat 32 k.output.length := hrb
    rw [hout] at hrb
    exact ⟨hfin, hb, hrb.trans hb.symm, hrx.trans hx.symm⟩

/-! ## The measure -/

/-- What the writer still has to do; a block with data is paid for by its bytes. -/
def WriterPc.rank (cnt : Int) : WriterPc → Nat
  | .semget => 22 | .initWrite => 21 | .initRead => 20 | .shmget => 19 | .shmat => 17
  | .reserve => 16 | .read => 16
  | .store n => if 0 < n then 28 else 15
  | .check => if 0 < cnt then 27 else 14
  | .release => if 0 < cnt then 26 else 13
  | .test => if cnt = 0 then 5 else 18
  | .next => 17
  | .finalReserve => 4 | .rmSem => 4 | .shmdt => 3 | .rmShm => 2 | .report => 1 | .exited => 0

def ReaderPc.rank : ReaderPc → Nat
  | .semget => 3 | .shmget => 2 | .shmat => 1
  | .reserve => 0 | .test => 6 | .add => 5 | .write => 4 | .compare _ => 3 | .release => 2
  | .shmdt => 4 | .finalRelease => 3 | .report => 1 | .exited => 0

/-- A process that has given up does nothing more. -/
def Proc.alive (p : Proc Pc) : Nat := if p.dead then 0 else 1

/-- What the semaphores allow, once both processes can use them. -/
def Shared.credit (k : Shared) : Nat :=
  match k.shm, k.sems with
  | true, some v => v writeSem + 7 * v readSem
  | _, _ => 0

def State.measure (s : State) : Nat :=
  13 * s.k.input.length + s.w.pc.rank s.k.seg.cnt + s.r.pc.rank + s.w.alive + s.r.alive + s.k.credit

/-- Not a call that was interrupted. -/
def Ans.counts : Ans → Bool
  | .eintr => false
  | _ => true

def Act.counts : Act → Bool
  | .writer a => a.counts
  | .reader a => a.counts

/-- A step in which no call fails: what a process that is not blocked can do. -/
def Act.succeeds : Act → Bool
  | .writer (.done _) => true
  | .reader (.done _) => true
  | _ => false

section Measure

variable {inp : List UInt8} {g : Ghost} {k k' : Shared} {r r' : Proc ReaderPc} {w w' : Proc WriterPc}
  {bufSize : Nat} {fresh : SemVals} {a : Ans} {v : SemVals} {c : Int}

theorem credit_eq (hshm : k.shm = true) (hv : k.sems = some v) :
    k.credit = v writeSem + 7 * v readSem := by
  rw [Shared.credit, hshm, hv]

theorem credit_write (hshm : k.shm = true) (x : Nat) :
    ({ k with sems := some (Function.update v writeSem x) } : Shared).credit =
      x + 7 * v readSem := by
  simp only [Shared.credit, hshm, Function.update_self]
  rw [Function.update_of_ne (by decide)]

theorem credit_read (hshm : k.shm = true) (x : Nat) :
    ({ k with sems := some (Function.update v readSem x) } : Shared).credit =
      v writeSem + 7 * x := by
  simp only [Shared.credit, hshm, Function.update_self]
  rw [Function.update_of_ne (by decide)]

/-- Outside the preparations there is a segment, until the writer removes it. -/
theorem SharedOk.shm_eq (h : SharedOk inp g k) (hset : g.turn ≠ .setup) (hclosing : g.turn ≠ .closing) :
    k.shm = true := by
  rw [SharedOk] at h
  cases hturn : g.turn with
  | setup => exact absurd hturn hset
  | toWriter => rw [hturn] at h; exact h.2.1
  | writer => rw [hturn] at h; exact h.2
  | toReader => rw [hturn] at h; exact h.2.1
  | reader => rw [hturn] at h; exact h.2
  | closing => exact absurd hturn hclosing

theorem alive_die {p : Proc Pc} (h : ¬ p.dead = true) : p.die.alive + 1 = p.alive := by
  rw [Proc.alive, Proc.alive, if_neg h]
  rfl

/-- The writer's share. -/
def writerMeasure (w : Proc WriterPc) (k : Shared) : Nat :=
  13 * k.input.length + w.pc.rank k.seg.cnt + w.alive + k.credit

/-- The writer is going to use the segment or its semaphore. -/
theorem WriterOk.shm_eq (h : WriterOk inp g k w) (hk : SharedOk inp g k)
    (hpc : w.pc = .reserve ∨ w.pc = .release ∨ w.pc = .finalReserve) : k.shm = true := by
  rw [WriterOk] at h
  rcases hpc with hpc | hpc | hpc
  · rw [hpc] at h
    rcases h.1 with ht | ht | ht
    all_goals exact hk.shm_eq (by rw [ht]; decide) (by rw [ht]; decide)
  · rw [hpc] at h
    exact hk.shm_eq (by rw [h.1.1]; decide) (by rw [h.1.1]; decide)
  · rw [hpc] at h
    rcases h.1.1 with ht | ht | ht
    all_goals exact hk.shm_eq (by rw [ht]; decide) (by rw [ht]; decide)

theorem one_of_counts (a : Ans) : (if a.counts then 1 else 0) ≤ 1 := by
  split <;> decide

/-- The writer gives up. -/
theorem writerMeasure_die (h : ¬ w.dead = true) :
    writerMeasure w.die k + (if a.counts then 1 else 0) ≤ writerMeasure w k := by
  have halive := alive_die h
  have hone := one_of_counts a
  have hpc : w.die.pc = w.pc := rfl
  unfold writerMeasure
  rw [hpc]
  omega

theorem credit_of_no_segment (hshm : k.shm = false) : k.credit = 0 := by
  rw [Shared.credit, hshm]

theorem writerMeasure_at {pc : WriterPc} (hpc : w.pc = pc) (k : Shared) : writerMeasure w k =
    13 * k.input.length + pc.rank k.seg.cnt + w.alive + k.credit := by
  rw [writerMeasure, hpc]

/-- The writer goes from one place to another, and leaves the input alone. -/
theorem writerMeasure_goes {pc pc' : WriterPc} (hpc : w.pc = pc) (hpc' : w'.pc = pc')
    (halive : w'.alive = w.alive) (hin : k'.input = k.input)
    (hcost : pc'.rank k'.seg.cnt + k'.credit + 1 ≤ pc.rank k.seg.cnt + k.credit) :
    writerMeasure w' k' + (if a.counts then 1 else 0) ≤ writerMeasure w k := by
  have hone := one_of_counts a
  rw [writerMeasure_at hpc', writerMeasure_at hpc, halive, hin]
  omega

/-- A block with data is paid for by its bytes. -/
theorem store_rank (n : Nat) : WriterPc.rank c (.store n) ≤ 15 + 13 * n := by
  show (if 0 < (n : Int) then 28 else 15) ≤ 15 + 13 * n
  split <;> omega

/-- **A step of the writer** makes its share smaller, unless it was interrupted. -/
theorem writer_measure (h : Inv inp g ⟨w, r, k⟩)
    (hstep : writerStep bufSize fresh a w k = some (w', k')) :
    writerMeasure w' k' + (if a.counts then 1 else 0) ≤ writerMeasure w k := by
  have hk := h.shared
  have hw := h.writer
  unfold writerStep at hstep
  split at hstep
  · cases hstep
  rename_i hlive
  have hdie := writerMeasure_die (k := k) (a := a) hlive
  have hsetup : g.turn = .setup → k.shm = false := by
    intro ht
    rw [SharedOk, ht] at hk
    exact hk.1
  cases hpc : w.pc with
  | semget =>
    rw [hpc] at hstep
    rw [WriterOk, hpc] at hw
    rcases onCall_cases hstep with ⟨-, rfl, rfl⟩ | ⟨rfl, rfl⟩
    · have hzero : ({ k with sems := some (k.sems.getD fresh) } : Shared).credit = 0 :=
        credit_of_no_segment (hsetup hw.1)
      refine writerMeasure_goes hpc rfl rfl rfl ?_
      rw [hzero]
      exact Nat.le_add_right 22 _
    · exact hdie
  | initWrite =>
    rw [hpc] at hstep
    rw [WriterOk, hpc] at hw
    rcases onSem_setval hstep with ⟨v, hv, rfl, rfl⟩ | ⟨rfl, rfl⟩
    · have hzero : ({ k with sems := some (Function.update v writeSem 1) } : Shared).credit = 0 :=
        credit_of_no_segment (hsetup hw.1)
      refine writerMeasure_goes hpc rfl rfl rfl ?_
      rw [hzero]
      exact Nat.le_add_right 21 _
    · exact hdie
  | initRead =>
    rw [hpc] at hstep
    rw [WriterOk, hpc] at hw
    rcases onSem_setval hstep with ⟨v, hv, rfl, rfl⟩ | ⟨rfl, rfl⟩
    · have hzero : ({ k with sems := some (Function.update v readSem 0) } : Shared).credit = 0 :=
        credit_of_no_segment (hsetup hw.1)
      refine writerMeasure_goes hpc rfl rfl rfl ?_
      rw [hzero]
      exact Nat.le_add_right 20 _
    · exact hdie
  | shmget =>
    rw [hpc] at hstep
    rw [WriterOk, hpc] at hw
    rcases onCall_cases hstep with ⟨-, rfl, rfl⟩ | ⟨rfl, rfl⟩
    · -- the writer's semaphore is 1, the reader's 0
      obtain ⟨v, hv, hx, hy⟩ := hw.2.2
      have hv : k.sems = some v := hv
      have hcredit : ({ k with shm := true, seg := ⟨0, List.replicate bufSize 0⟩ } : Shared).credit =
          v writeSem + 7 * v readSem := credit_eq rfl hv
      rw [if_neg (by rw [hsetup hw.1]; decide)]
      refine writerMeasure_goes hpc rfl rfl rfl ?_
      rw [hcredit, hx, hy]
      exact Nat.le_add_right 19 _
    · exact hdie
  | shmat =>
    rw [hpc] at hstep
    rcases onCall_cases hstep with ⟨-, rfl, rfl⟩ | ⟨rfl, rfl⟩
    · refine writerMeasure_goes hpc rfl rfl rfl ?_
      show 16 + _ + 1 ≤ 17 + _
      omega
    · exact hdie
  | reserve =>
    rw [hpc] at hstep
    have hshm := hw.shm_eq hk (Or.inl hpc)
    rcases onSem_reserve hstep with ⟨v, hv, hpos, rfl, rfl⟩ | ⟨rfl, rfl, rfl⟩ | ⟨rfl, rfl⟩
    · refine writerMeasure_goes hpc rfl rfl rfl ?_
      rw [credit_write hshm, credit_eq hshm hv]
      show 16 + _ + 1 ≤ 16 + _
      omega
    · exact Nat.le_refl _
    · exact hdie
  | read =>
    rw [hpc] at hstep
    have hfail : writerMeasure (w.goto (.store (-1))) k + (if a.counts then 1 else 0) ≤ writerMeasure w k := by
      refine writerMeasure_goes hpc rfl rfl rfl ?_
      show 15 + _ + 1 ≤ 16 + _
      omega
    cases a with
    | done n =>
      dsimp only at hstep
      split at hstep
      · rename_i hn
        cases hstep
        have hrank := store_rank (c := k.seg.cnt) n
        rw [writerMeasure_at rfl, writerMeasure_at hpc, List.length_drop]
        show 13 * (k.input.length - n) + WriterPc.rank k.seg.cnt (.store n) + w.alive + k.credit + 1 ≤
          13 * k.input.length + 16 + _ + _
        omega
      · cases hstep
    | eintr =>
      cases hstep
      exact hfail
    | error =>
      cases hstep
      exact hfail
  | store n =>
    rw [hpc] at hstep
    cases hstep
    refine writerMeasure_goes hpc rfl rfl rfl ?_
    show (if 0 < n then 27 else 14) + k.credit + 1 ≤ (if 0 < n then 28 else 15) + _
    split <;> omega
  | check =>
    rw [hpc] at hstep
    cases hstep
    by_cases hbad : k.seg.cnt = -1
    · rw [if_pos hbad]
      exact hdie
    · rw [if_neg hbad]
      refine writerMeasure_goes hpc rfl rfl rfl ?_
      show (if 0 < k.seg.cnt then 26 else 13) + _ + 1 ≤ (if 0 < k.seg.cnt then 27 else 14) + _
      split <;> omega
  | release =>
    rw [hpc] at hstep
    have hshm := hw.shm_eq hk (Or.inr (Or.inl hpc))
    rcases onSem_release hstep with ⟨v, hv, rfl, rfl⟩ | ⟨rfl, rfl⟩
    · -- the block is empty, or it has bytes
      have hcnt : k.seg.cnt = 0 ∨ 0 < k.seg.cnt := by
        rw [WriterOk, hpc] at hw
        obtain ⟨⟨-, -, -, ⟨hbad, -⟩ | ⟨hfull, -⟩⟩, hne⟩ := hw
        · exact absurd hbad hne
        · have hnonneg : 0 ≤ k.seg.cnt := hfull.nonneg
          omega
      refine writerMeasure_goes hpc rfl rfl rfl ?_
      rw [credit_read hshm, credit_eq hshm hv]
      show (if k.seg.cnt = 0 then 5 else 18) + _ + 1 ≤ (if 0 < k.seg.cnt then 26 else 13) + _
      rcases hcnt with h0 | hpos
      · rw [if_pos h0, if_neg (show ¬ 0 < k.seg.cnt by omega)]
        omega
      · rw [if_neg (show ¬ k.seg.cnt = 0 by omega), if_pos hpos]
        omega
    · exact hdie
  | test =>
    rw [hpc] at hstep
    cases hstep
    by_cases h0 : k.seg.cnt = 0
    · rw [if_pos h0]
      refine writerMeasure_goes hpc rfl rfl rfl ?_
      show 4 + _ + 1 ≤ (if k.seg.cnt = 0 then 5 else 18) + _
      rw [if_pos h0]
      omega
    · rw [if_neg h0]
      refine writerMeasure_goes hpc rfl rfl rfl ?_
      show 17 + _ + 1 ≤ (if k.seg.cnt = 0 then 5 else 18) + _
      rw [if_neg h0]
      omega
  | next =>
    rw [hpc] at hstep
    cases hstep
    refine writerMeasure_goes hpc rfl rfl rfl ?_
    show 16 + _ + 1 ≤ 17 + _
    omega
  | finalReserve =>
    rw [hpc] at hstep
    have hshm := hw.shm_eq hk (Or.inr (Or.inr hpc))
    rcases onSem_reserve hstep with ⟨v, hv, hpos, rfl, rfl⟩ | ⟨rfl, rfl, rfl⟩ | ⟨rfl, rfl⟩
    · refine writerMeasure_goes hpc rfl rfl rfl ?_
      rw [credit_write hshm, credit_eq hshm hv]
      show 4 + _ + 1 ≤ 4 + _
      omega
    · exact Nat.le_refl _
    · exact hdie
  | rmSem =>
    rw [hpc] at hstep
    rcases onCall_cases hstep with ⟨-, rfl, rfl⟩ | ⟨rfl, rfl⟩
    · have hzero : ({ k with sems := none } : Shared).credit = 0 := by
        rw [Shared.credit]
        cases k.shm <;> rfl
      refine writerMeasure_goes hpc rfl rfl rfl ?_
      rw [hzero]
      exact Nat.le_add_right 4 _
    · exact hdie
  | shmdt =>
    rw [hpc] at hstep
    rcases onCall_cases hstep with ⟨-, rfl, rfl⟩ | ⟨rfl, rfl⟩
    · refine writerMeasure_goes hpc rfl rfl rfl ?_
      show 2 + _ + 1 ≤ 3 + _
      omega
    · exact hdie
  | rmShm =>
    rw [hpc] at hstep
    rcases onCall_cases hstep with ⟨-, rfl, rfl⟩ | ⟨rfl, rfl⟩
    · have hzero : ({ k with shm := false } : Shared).credit = 0 := credit_of_no_segment rfl
      refine writerMeasure_goes hpc rfl rfl rfl ?_
      rw [hzero]
      exact Nat.le_add_right 2 _
    · exact hdie
  | report =>
    rw [hpc] at hstep
    cases hstep
    refine writerMeasure_goes hpc rfl rfl rfl ?_
    show 0 + _ + 1 ≤ 1 + _
    omega
  | exited =>
    rw [hpc] at hstep
    cases hstep

/-- The reader's share. -/
def readerMeasure (r : Proc ReaderPc) (k : Shared) : Nat := r.pc.rank + r.alive + k.credit

theorem readerMeasure_die (h : ¬ r.dead = true) :
    readerMeasure r.die k + (if a.counts then 1 else 0) ≤ readerMeasure r k := by
  have halive := alive_die h
  have hone := one_of_counts a
  have hpc : r.die.pc = r.pc := rfl
  unfold readerMeasure
  rw [hpc]
  omega

/-- The reader goes from one place to another. -/
theorem readerMeasure_goes {pc pc' : ReaderPc} (hpc : r.pc = pc) (hpc' : r'.pc = pc')
    (halive : r'.alive = r.alive) (hcost : pc'.rank + k'.credit + 1 ≤ pc.rank + k.credit) :
    readerMeasure r' k' + (if a.counts then 1 else 0) ≤ readerMeasure r k := by
  have hone := one_of_counts a
  unfold readerMeasure
  rw [hpc', hpc, halive]
  omega

theorem ReaderOk.shm_eq (h : ReaderOk inp g k r) (hk : SharedOk inp g k)
    (hpc : r.pc = .reserve ∨ r.pc = .release ∨ r.pc = .finalRelease) : k.shm = true := by
  rw [ReaderOk] at h
  rcases hpc with hpc | hpc | hpc
  · rw [hpc] at h
    refine hk.shm_eq h.2 fun hclosing => ?_
    rcases h.1.1 with ht | ⟨ht, -⟩ | ht | ht
    all_goals exact absurd (hclosing.symm.trans ht) (by decide)
  · rw [hpc] at h
    exact hk.shm_eq (by rw [h.1.1]; decide) (by rw [h.1.1]; decide)
  · rw [hpc] at h
    exact hk.shm_eq (by rw [h.1]; decide) (by rw [h.1]; decide)

/-- **A step of the reader** makes its share smaller, unless it was interrupted, and leaves the
    rest. -/
theorem reader_measure (h : Inv inp g ⟨w, r, k⟩) (hstep : readerStep a r k = some (r', k')) :
    readerMeasure r' k' + (if a.counts then 1 else 0) ≤ readerMeasure r k ∧
      k'.input = k.input ∧ k'.seg = k.seg := by
  have hk := h.shared
  have hr := h.reader
  unfold readerStep at hstep
  split at hstep
  · cases hstep
  rename_i hlive
  have hdie := readerMeasure_die (k := k) (a := a) hlive
  cases hpc : r.pc with
  | semget =>
    rw [hpc] at hstep
    rcases onCall_cases hstep with ⟨-, rfl, rfl⟩ | ⟨rfl, rfl⟩
    · refine ⟨readerMeasure_goes hpc rfl rfl ?_, rfl, rfl⟩
      show 2 + _ + 1 ≤ 3 + _
      omega
    · exact ⟨hdie, rfl, rfl⟩
  | shmget =>
    rw [hpc] at hstep
    rcases onCall_cases hstep with ⟨-, rfl, rfl⟩ | ⟨rfl, rfl⟩
    · refine ⟨readerMeasure_goes hpc rfl rfl ?_, rfl, rfl⟩
      show 1 + _ + 1 ≤ 2 + _
      omega
    · exact ⟨hdie, rfl, rfl⟩
  | shmat =>
    rw [hpc] at hstep
    rcases onCall_cases hstep with ⟨-, rfl, rfl⟩ | ⟨rfl, rfl⟩
    · refine ⟨readerMeasure_goes hpc rfl rfl ?_, rfl, rfl⟩
      show 0 + _ + 1 ≤ 1 + _
      omega
    · exact ⟨hdie, rfl, rfl⟩
  | reserve =>
    rw [hpc] at hstep
    have hshm := hr.shm_eq hk (Or.inl hpc)
    rcases onSem_reserve hstep with ⟨v, hv, hpos, rfl, rfl⟩ | ⟨rfl, rfl, rfl⟩ | ⟨rfl, rfl⟩
    · refine ⟨readerMeasure_goes hpc rfl rfl ?_, rfl, rfl⟩
      rw [credit_read hshm, credit_eq hshm hv]
      show 6 + _ + 1 ≤ 0 + _
      omega
    · exact ⟨Nat.le_refl _, rfl, rfl⟩
    · exact ⟨hdie, rfl, rfl⟩
  | test =>
    rw [hpc] at hstep
    cases hstep
    by_cases h0 : k.seg.cnt = 0
    · rw [if_pos h0]
      refine ⟨readerMeasure_goes hpc rfl rfl ?_, rfl, rfl⟩
      show 4 + _ + 1 ≤ 6 + _
      omega
    · rw [if_neg h0]
      refine ⟨readerMeasure_goes hpc rfl rfl ?_, rfl, rfl⟩
      show 5 + _ + 1 ≤ 6 + _
      omega
  | add =>
    rw [hpc] at hstep
    cases hstep
    refine ⟨readerMeasure_goes hpc rfl rfl ?_, rfl, rfl⟩
    show 4 + _ + 1 ≤ 5 + _
    omega
  | write =>
    rw [hpc] at hstep
    have hnext : ∀ n k', k'.credit = k.credit →
        readerMeasure (r.goto (.compare n)) k' + (if a.counts then 1 else 0) ≤ readerMeasure r k := by
      intro n k' hcredit
      refine readerMeasure_goes hpc rfl rfl ?_
      rw [hcredit]
      show 3 + _ + 1 ≤ 4 + _
      omega
    cases a with
    | done n =>
      dsimp only at hstep
      split at hstep
      · cases hstep
        exact ⟨hnext _ _ rfl, rfl, rfl⟩
      · cases hstep
    | eintr =>
      cases hstep
      exact ⟨hnext _ _ rfl, rfl, rfl⟩
    | error =>
      cases hstep
      exact ⟨hnext _ _ rfl, rfl, rfl⟩
  | compare n =>
    rw [hpc] at hstep
    cases hstep
    by_cases hn : n = k.seg.cnt
    · rw [if_pos hn]
      refine ⟨readerMeasure_goes hpc rfl rfl ?_, rfl, rfl⟩
      show 2 + _ + 1 ≤ 3 + _
      omega
    · rw [if_neg hn]
      exact ⟨hdie, rfl, rfl⟩
  | release =>
    rw [hpc] at hstep
    have hshm := hr.shm_eq hk (Or.inr (Or.inl hpc))
    rcases onSem_release hstep with ⟨v, hv, rfl, rfl⟩ | ⟨rfl, rfl⟩
    · refine ⟨readerMeasure_goes hpc rfl rfl ?_, rfl, rfl⟩
      rw [credit_write hshm, credit_eq hshm hv]
      show 0 + _ + 1 ≤ 2 + _
      omega
    · exact ⟨hdie, rfl, rfl⟩
  | shmdt =>
    rw [hpc] at hstep
    rcases onCall_cases hstep with ⟨-, rfl, rfl⟩ | ⟨rfl, rfl⟩
    · refine ⟨readerMeasure_goes hpc rfl rfl ?_, rfl, rfl⟩
      show 3 + _ + 1 ≤ 4 + _
      omega
    · exact ⟨hdie, rfl, rfl⟩
  | finalRelease =>
    rw [hpc] at hstep
    have hshm := hr.shm_eq hk (Or.inr (Or.inr hpc))
    rcases onSem_release hstep with ⟨v, hv, rfl, rfl⟩ | ⟨rfl, rfl⟩
    · refine ⟨readerMeasure_goes hpc rfl rfl ?_, rfl, rfl⟩
      rw [credit_write hshm, credit_eq hshm hv]
      show 1 + _ + 1 ≤ 3 + _
      omega
    · exact ⟨hdie, rfl, rfl⟩
  | report =>
    rw [hpc] at hstep
    cases hstep
    refine ⟨readerMeasure_goes hpc rfl rfl ?_, rfl, rfl⟩
    show 0 + _ + 1 ≤ 1 + _
    omega
  | exited =>
    rw [hpc] at hstep
    cases hstep

/-- **One step.** -/
theorem measure_step {s s' : State} {act : Act} (h : Inv inp g s)
    (hstep : step bufSize fresh s act = some s') :
    s'.measure + (if act.counts then 1 else 0) ≤ s.measure := by
  cases act with
  | writer a =>
    obtain ⟨⟨w', k'⟩, hw, rfl⟩ := Option.map_eq_some_iff.mp hstep
    have hmeasure := writer_measure h hw
    show (⟨w', s.r, k'⟩ : State).measure + (if a.counts then 1 else 0) ≤ s.measure
    unfold writerMeasure at hmeasure
    unfold State.measure
    dsimp only
    omega
  | reader a =>
    obtain ⟨⟨r', k'⟩, hr, rfl⟩ := Option.map_eq_some_iff.mp hstep
    obtain ⟨hmeasure, hin, hseg⟩ := reader_measure h hr
    show (⟨s.w, r', k'⟩ : State).measure + (if a.counts then 1 else 0) ≤ s.measure
    unfold readerMeasure at hmeasure
    unfold State.measure
    dsimp only
    rw [hin, hseg]
    omega

end Measure

/-! ## No deadlock -/

section Progress

variable {inp : List UInt8} {g : Ghost} {k : Shared} {r : Proc ReaderPc} {w : Proc WriterPc}
  {bufSize : Nat} {fresh : SemVals}

/-- A semaphore that is not 0 can be taken. -/
theorem onSem_reserve_isSome {semNum : Nat} {v : SemVals} {p next : Proc Pc} (hv : k.sems = some v)
    (hpos : 0 < v semNum) : (onSem (reserveSem semNum (.done 0) k.sems) p k next).isSome := by
  have htake : semop v [⟨semNum, -1⟩] = some _ := semop_take.mpr ⟨hpos, rfl⟩
  simp only [onSem, reserveSem, hv, Option.bind_some, htake, Option.map_some, Option.isSome_some]

theorem onSem_release_isSome {semNum : Nat} {p next : Proc Pc} (hv : k.sems.isSome = true) :
    (onSem (releaseSem semNum (.done 0) k.sems) p k next).isSome := by
  obtain ⟨v, hv⟩ := Option.isSome_iff_exists.mp hv
  simp only [onSem, releaseSem, hv, Option.bind_some, semop_give, Option.map_some,
    Option.isSome_some]

theorem onSem_setval_isSome {semNum val : Nat} {p next : Proc Pc} (hv : k.sems.isSome = true) :
    (onSem (semctlSetval semNum val (.done 0) k.sems) p k next).isSome := by
  obtain ⟨v, hv⟩ := Option.isSome_iff_exists.mp hv
  simp only [onSem, semctlSetval, hv, Option.map_some, Option.isSome_some]

theorem SemsAre.isSome {x y : Nat} (h : SemsAre k x y) : k.sems.isSome = true := by
  obtain ⟨v, hv, -⟩ := h
  rw [hv]
  rfl

/-- The writer is not kept waiting in this turn. -/
def Turn.letsWriter : Turn → Bool
  | .toReader | .reader => false
  | _ => true

/-- The writer can go on. -/
theorem Inv.writer_enabled (h : Inv inp g ⟨w, r, k⟩) (hbuf : 0 < bufSize) (hlive : w.dead = false)
    (hturn : g.turn.letsWriter = true) (hexit : w.pc ≠ .exited) :
    ∃ n, (writerStep bufSize fresh (.done n) w k).isSome := by
  have hk := h.shared
  have hw := h.writer
  have htake : (g.turn = .toReader ∨ g.turn = .reader ∨ g.turn = .toWriter) →
      ∃ v, k.sems = some v ∧ 0 < v writeSem := by
    rintro (ht | ht | ht)
    · rw [ht] at hturn; nomatch hturn
    · rw [ht] at hturn; nomatch hturn
    · rw [SharedOk, ht] at hk
      obtain ⟨v, hv, hone, -⟩ := hk.1
      exact ⟨v, hv, by omega⟩
  rw [WriterOk] at hw
  simp only [writerStep, hlive, Bool.false_eq_true, if_false]
  cases hpc : w.pc with
  | semget => exact ⟨0, rfl⟩
  | initWrite => rw [hpc] at hw; exact ⟨0, onSem_setval_isSome hw.2.2⟩
  | initRead =>
    rw [hpc] at hw
    obtain ⟨v, hv, -⟩ := hw.2.2
    have hv : k.sems = some v := hv
    exact ⟨0, onSem_setval_isSome (by rw [hv]; rfl)⟩
  | shmget => exact ⟨0, rfl⟩
  | shmat =>
    rw [hpc] at hw
    have hshm := hk.shm_eq (by rw [hw.1]; decide) (by rw [hw.1]; decide)
    have hshm : k.shm = true := hshm
    exact ⟨0, by rw [hshm]; rfl⟩
  | reserve =>
    rw [hpc] at hw
    obtain ⟨v, hv, hpos⟩ := htake hw.1
    exact ⟨0, onSem_reserve_isSome hv hpos⟩
  | read =>
    -- one byte if there is one
    refine ⟨min 1 k.input.length, ?_⟩
    dsimp only
    rw [if_pos ⟨by omega, by omega, fun h0 => List.eq_nil_of_length_eq_zero (by omega)⟩]
    rfl
  | store n => exact ⟨0, rfl⟩
  | check => exact ⟨0, rfl⟩
  | release =>
    rw [hpc] at hw
    rw [SharedOk, hw.1.1] at hk
    exact ⟨0, onSem_release_isSome hk.1.isSome⟩
  | test => exact ⟨0, rfl⟩
  | next => exact ⟨0, rfl⟩
  | finalReserve =>
    rw [hpc] at hw
    obtain ⟨v, hv, hpos⟩ := htake hw.1.1
    exact ⟨0, onSem_reserve_isSome hv hpos⟩
  | rmSem =>
    rw [hpc] at hw
    have hsome : k.sems.isSome = true := hw.2.1
    exact ⟨0, by rw [hsome]; rfl⟩
  | shmdt => exact ⟨0, rfl⟩
  | rmShm =>
    rw [hpc] at hw
    have hshm : k.shm = true := hw.2.1
    exact ⟨0, by rw [hshm]; rfl⟩
  | report => exact ⟨0, rfl⟩
  | exited => exact absurd hpc hexit

/-- The reader can go on. -/
theorem Inv.reader_enabled (h : Inv inp g ⟨w, r, k⟩) (hlive : r.dead = false)
    (hturn : g.turn = .toReader ∨ g.turn = .reader) :
    (readerStep (.done 0) r k).isSome := by
  have hk := h.shared
  have hr := h.reader
  have hshm : k.shm = true := by
    rcases hturn with ht | ht
    all_goals exact hk.shm_eq (by rw [ht]; decide) (by rw [ht]; decide)
  have hsome : k.sems.isSome = true := by
    rcases hturn with ht | ht
    all_goals
      rw [SharedOk, ht] at hk
      exact hk.1.isSome
  rw [ReaderOk] at hr
  simp only [readerStep, hlive, Bool.false_eq_true, if_false]
  cases hpc : r.pc with
  | semget => rw [hsome]; rfl
  | shmget => rw [hshm]; rfl
  | shmat => rw [hshm]; rfl
  | reserve =>
    rw [hpc] at hr
    -- a reader that waits is not in its own turn
    rcases hturn with ht | ht
    · rw [SharedOk, ht] at hk
      obtain ⟨v, hv, -, hone⟩ := hk.1
      exact onSem_reserve_isSome hv (by omega)
    · rcases hr.1.1 with h' | ⟨h', -⟩ | h' | h'
      all_goals exact absurd (ht.symm.trans h') (by decide)
  | test => rfl
  | add => rfl
  | write =>
    dsimp only
    rw [if_pos (Nat.zero_le _)]
    rfl
  | compare n => rfl
  | release => exact onSem_release_isSome hsome
  | shmdt => rfl
  | finalRelease => exact onSem_release_isSome hsome
  | report => rfl
  | exited =>
    rw [hpc] at hr
    rcases hturn with ht | ht
    all_goals
      rcases hr.1 with h' | h'
      all_goals exact absurd (ht.symm.trans h') (by decide)

/-- **No deadlock.** -/
theorem Inv.progress {s : State} (h : Inv inp g s) (hbuf : 0 < bufSize) (hw : s.w.dead = false)
    (hr : s.r.dead = false) (hopen : ¬ (s.w.pc = .exited ∧ s.r.pc = .exited)) :
    ∃ act : Act, act.succeeds = true ∧ (SvshmXfr.step bufSize fresh s act).isSome = true := by
  obtain ⟨w, r, k⟩ := s
  by_cases hturn : g.turn = .toReader ∨ g.turn = .reader
  · refine ⟨.reader (.done 0), rfl, ?_⟩
    rw [SvshmXfr.step, Option.isSome_map]
    exact h.reader_enabled hr hturn
  · have hlets : g.turn.letsWriter = true := by
      cases ht : g.turn with
      | toReader => exact absurd (Or.inl ht) hturn
      | reader => exact absurd (Or.inr ht) hturn
      | _ => rfl
    by_cases hexit : w.pc = .exited
    · -- the reader has only its report to write
      have hsent := h.writer
      rw [WriterOk, hexit] at hsent
      have hfin : r.pc.finished = true := h.reader.finished_of_closing hsent.1.1
      have hreport : r.pc = .report := by
        cases hpc : r.pc with
        | report => rfl
        | exited => exact absurd ⟨hexit, hpc⟩ hopen
        | _ =>
          rw [hpc] at hfin
          cases hfin
      refine ⟨.reader (.done 0), rfl, ?_⟩
      have hr : r.dead = false := hr
      rw [SvshmXfr.step, Option.isSome_map, readerStep, hr, hreport]
      rfl
    · obtain ⟨n, hn⟩ : ∃ n, (writerStep bufSize fresh (.done n) w k).isSome :=
        h.writer_enabled hbuf hw hlets hexit
      refine ⟨.writer (.done n), rfl, ?_⟩
      rw [SvshmXfr.step, Option.isSome_map]
      exact hn

end Progress

/-- **The transfer comes to an end.**  A run from the start has at most `13 n + 27` steps for an input
    of `n` bytes, interruptions not counted.  Where no call can succeed, somebody has given up or
    both processes have finished: then the output is the input and neither the semaphores nor the
    segment are left. -/
theorem transfer_total {bufSize : Nat} (hbuf : 0 < bufSize) {fresh : SemVals} {inp : List UInt8}
    {acts : List Act} {s : State} (h : runList (step bufSize fresh) Any (start inp) acts = some s) :
    acts.countP Act.counts ≤ 13 * inp.length + 27 ∧
      ((∀ act : Act, act.succeeds = true → step bufSize fresh s act = none) →
        s.w.dead = true ∨ s.r.dead = true ∨
          s.w.pc = .exited ∧ s.r.pc = .exited ∧ s.k.output = inp ∧ s.k.sems = none ∧
            s.k.shm = false) := by
  have hone : ∀ s act s', (∃ g, Inv inp g s) → Any s act → step bufSize fresh s act = some s' →
      (∃ g, Inv inp g s') ∧ s'.measure + (if act.counts then 1 else 0) ≤ s.measure :=
    fun s act s' ⟨g, hinv⟩ _ hstep => ⟨hinv.step hstep, measure_step hinv hstep⟩
  obtain ⟨⟨g, hinv⟩, hcount⟩ := runList_bound hone ⟨_, inv_start inp⟩ h
  have hstart : (start inp).measure = 13 * inp.length + 27 := rfl
  refine ⟨by omega, fun hstuck => ?_⟩
  by_cases hw : s.w.dead = true
  · exact Or.inl hw
  by_cases hr : s.r.dead = true
  · exact Or.inr (Or.inl hr)
  have hexit : s.w.pc = .exited ∧ s.r.pc = .exited := by
    by_contra hopen
    have hcan : ∃ act : Act, act.succeeds = true ∧ (step bufSize fresh s act).isSome = true :=
      hinv.progress hbuf (Bool.eq_false_iff.mpr hw) (Bool.eq_false_iff.mpr hr) hopen
    obtain ⟨act, hact, hsome⟩ := hcan
    rw [hstuck act hact] at hsome
    nomatch hsome
  have hwriter := hinv.writer
  rw [WriterOk, hexit.1] at hwriter
  obtain ⟨-, hshm, hsems⟩ := hwriter
  have hfin : s.r.pc.finished = true := by
    rw [hexit.2]
    rfl
  exact Or.inr (Or.inr ⟨hexit.1, hexit.2, hinv.output_eq hfin, hsems, hshm⟩)

/-- Three bytes through a buffer of two.  The reader begins as soon as there is a segment and is
    interrupted while it waits; the writer tests `cnt` when the reader is already done with the
    block, and has exited before the reader has. -/
def threeBytes : List Act :=
  let w n := Act.writer (.done n)
  let r n := Act.reader (.done n)
  [w 0, w 0, w 0, w 0, r 0, r 0, r 0, .reader .eintr, w 0, w 0, w 2, w 0, w 0, w 0,
   r 0, r 0, r 0, r 2, r 0, r 0, w 0, w 0, w 0, w 1, w 0, w 0, w 0, w 0, w 0,
   r 0, r 0, r 0, r 1, r 0, r 0, w 0, w 0, w 0, w 0, w 0, w 0, r 0, r 0, r 0, r 0, w 0, w 0, w 0, w 0,
   w 0, r 0]

/-- What the run of `threeBytes` leads to. -/
theorem threeBytes_run :
    (runList (step 2 (fun _ => 9)) Any (start [1, 2, 3]) threeBytes).map
      (fun s => (s.w.pc, s.r.pc, s.w.dead, s.r.dead)) = some (.exited, .exited, false, false) := by
  decide +kernel

theorem transfer_safe_threeBytes : ∃ s : State, s.w.pc = .exited ∧ s.r.pc = .exited ∧
    s.k.output = [1, 2, 3] ∧ s.w.bytes = 3 ∧ s.r.bytes = s.w.bytes ∧ s.r.xfrs = s.w.xfrs := by
  obtain ⟨s, hs, hobs⟩ := Reach.of_observed threeBytes_run
  obtain ⟨hw, hr, -⟩ := Prod.mk.inj hobs |>.imp id Prod.mk.inj
  obtain ⟨-, -, -, hout, hexit⟩ := transfer_safe hs
  obtain ⟨hfin, hb, hb', hx⟩ := hexit hw
  exact ⟨s, hw, hr, hout hfin, hb, hb', hx⟩

theorem stuck_of_exited {bufSize : Nat} {fresh : SemVals} {s : State} (hw : s.w.pc = .exited)
    (hr : s.r.pc = .exited) (act : Act) : step bufSize fresh s act = none := by
  obtain ⟨w, r, k⟩ := s
  have hw : w.pc = .exited := hw
  have hr : r.pc = .exited := hr
  cases act with
  | writer a =>
    have hnone : writerStep bufSize fresh a w k = none := by
      unfold writerStep
      rw [hw]
      exact ite_self _
    rw [step, hnone]
    rfl
  | reader a =>
    have hnone : readerStep a r k = none := by
      unfold readerStep
      rw [hr]
      exact ite_self _
    rw [step, hnone]
    rfl

/-- 50 of the 51 steps count, and the bound is 66; behind them nothing can be done. -/
theorem transfer_total_threeBytes :
    threeBytes.countP Act.counts = 50 ∧ threeBytes.countP Act.counts ≤ 13 * 3 + 27 ∧
      ∃ s : State, (∀ act : Act, step 2 (fun _ => 9) s act = none) ∧ s.k.output = [1, 2, 3] ∧
        s.k.sems = none ∧ s.k.shm = false := by
  obtain ⟨s, hs, hobs⟩ := Option.map_eq_some_iff.mp threeBytes_run
  obtain ⟨hw, hr, hwd, hrd⟩ : s.w.pc = .exited ∧ s.r.pc = .exited ∧ s.w.dead = false ∧
      s.r.dead = false := by simpa using hobs
  have htotal := transfer_total (by decide) hs
  refine ⟨by decide, htotal.1, s, stuck_of_exited hw hr, ?_⟩
  rcases htotal.2 fun act _ => stuck_of_exited hw hr act with hdead | hdead | hdone
  · exact absurd (hwd.symm.trans hdead) (by decide)
  · exact absurd (hrd.symm.trans hdead) (by decide)
  · exact hdone.2.2

end LinuxInterface.SvshmXfr
