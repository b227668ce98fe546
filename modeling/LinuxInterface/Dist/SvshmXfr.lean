/-
  The transfer of a file through shared memory, svshm/svshm_xfr_writer.c and svshm_xfr_reader.c
  over the binary semaphores of svsem/binary_sems.c (tlpi-dist).

  1. **The programs** — `writerStep` and `readerStep` are one system call, or one access to the
     shared segment, of each of the two processes.  What the kernel answers is the label: how many
     bytes `read` and `write` transfer, an interruption, an error.  A process that calls `errExit`
     or `fatal` stays where it is and is `dead`.

  2. **The turn** — at any moment the segment belongs to one process or to the semaphore that
     waits for the other (`Turn`).  What each process may rely on at each place is its assertion
     (`WriterOk`, `ReaderOk`), stated with the turn, with whether the empty block has been passed
     on (`fin`) and with the number of blocks that were.  A process only changes what its turn lets
     it change, so the assertion of the other one survives (`Inv.step`).

  3. **The transfer** — `transfer_safe`: whatever the order of the steps and whatever fails, both
     never have the turn at the same time, what has been written is a beginning of the input, and
     it is the whole input when the reader is done.  `transfer_total`: the steps that are not
     interruptions are bounded in number, and as long as nobody is dead they end only with both
     processes finished.
-/
import LinuxInterface.Base.Reach
import LinuxInterface.Base.SysvSem
import Mathlib.Data.BitVec

namespace LinuxInterface.SvshmXfr

open LinuxInterface

/-- What the kernel answers; `n` is what a successful `read` or `write` returns. -/
inductive Ans where
  | done (n : Nat)
  | eintr
  | error
  deriving DecidableEq

/-! ## binary_sems.c -/

/-- What a function on semaphores has done after one system call: it has returned 0 and left the
    values, or it has returned -1, or it calls again. -/
inductive SemCall where
  | ok (vals : SemVals)
  | failed
  | again

def bsRetryOnEintr : Bool := true

/-- `semctl` with `SETVAL`; there may be no such set. -/
def semctlSetval (semNum val : Nat) (a : Ans) (sems : Option SemVals) : Option SemCall :=
  match a with
  | .done _ => sems.map fun vals => .ok (setval vals semNum val)
  | _ => some .failed

def initSemAvailable (semNum : Nat) : Ans → Option SemVals → Option SemCall := semctlSetval semNum 1

def initSemInUse (semNum : Nat) : Ans → Option SemVals → Option SemCall := semctlSetval semNum 0

/-- One round of the loop; `none` where the call blocks. -/
def reserveSem (semNum : Nat) (a : Ans) (sems : Option SemVals) : Option SemCall :=
  match a with
  | .done _ => (sems.bind fun vals => semop vals [⟨semNum, -1⟩]).map .ok
  | .eintr => some (if bsRetryOnEintr then .again else .failed)
  | .error => some .failed

def releaseSem (semNum : Nat) (a : Ans) (sems : Option SemVals) : Option SemCall :=
  match a with
  | .done _ => (sems.bind fun vals => semop vals [⟨semNum, 1⟩]).map .ok
  | _ => some .failed

/-! ## The two programs -/

def writeSem : Nat := 0

def readSem : Nat := 1

/-- `struct shmseg`. -/
structure Seg where
  cnt : Int
  buf : List UInt8
  deriving DecidableEq

/-- What `read` into `buf` does: the bytes behind those that were read stay. -/
def Seg.fill (seg : Seg) (bytes : List UInt8) : Seg :=
  { seg with buf := bytes ++ seg.buf.drop bytes.length }

/-- The semaphore set and the segment (those who have attached it keep it when it is removed), the
    writer's standard input as far as it has not been read, and the reader's standard output. -/
structure Shared where
  sems : Option SemVals
  shm : Bool
  seg : Seg
  input : List UInt8
  output : List UInt8

/-- A process: where it is, whether it has given up there, and its `int` variables. -/
structure Proc (Pc : Type) where
  pc : Pc
  dead : Bool
  xfrs : BitVec 32
  bytes : BitVec 32

variable {Pc : Type}

def Proc.goto (p : Proc Pc) (pc : Pc) : Proc Pc := { p with pc := pc }

/-- `errExit` and `fatal`. -/
def Proc.die (p : Proc Pc) : Proc Pc := { p with dead := true }

/-- A call that can only succeed under a condition. -/
def onCall (possible : Bool) (a : Ans) (p : Proc Pc) (k : Shared) (next : Proc Pc × Shared) :
    Option (Proc Pc × Shared) :=
  match a with
  | .done _ => if possible then some next else none
  | _ => some (p.die, k)

/-- `if (… == -1) errExit(…)` around a function on semaphores. -/
def onSem (call : Option SemCall) (p : Proc Pc) (k : Shared) (next : Proc Pc) :
    Option (Proc Pc × Shared) :=
  call.map fun
    | .ok vals => (next, { k with sems := some vals })
    | .failed => (p.die, k)
    | .again => (p, k)

/-- Where the writer is. -/
inductive WriterPc where
  | semget | initWrite | initRead | shmget | shmat
  | reserve | read | store (n : Int) | check | release | test | next
  | finalReserve | rmSem | shmdt | rmShm | report | exited
  deriving DecidableEq

/-- svshm_xfr_writer.c; a new set has the values `fresh`. -/
def writerStep (bufSize : Nat) (fresh : SemVals) (a : Ans) (w : Proc WriterPc) (k : Shared) :
    Option (Proc WriterPc × Shared) :=
  if w.dead then none else
  match w.pc with
  | .semget =>
    onCall true a w k (w.goto .initWrite, { k with sems := some (k.sems.getD fresh) })
  | .initWrite => onSem (initSemAvailable writeSem a k.sems) w k (w.goto .initRead)
  | .initRead => onSem (initSemInUse readSem a k.sems) w k (w.goto .shmget)
  | .shmget =>
    onCall true a w k (w.goto .shmat,
      if k.shm then k else { k with shm := true, seg := ⟨0, List.replicate bufSize 0⟩ })
  | .shmat => onCall k.shm a w k (w.goto .reserve, k)
  | .reserve => onSem (reserveSem writeSem a k.sems) w k (w.goto .read)
  | .read =>
    match a with
    | .done n =>
      if n ≤ bufSize ∧ n ≤ k.input.length ∧ (n = 0 → k.input = []) then
        some (w.goto (.store n),
          { k with seg := k.seg.fill (k.input.take n), input := k.input.drop n })
      else none
    | _ => some (w.goto (.store (-1)), k)
  | .store n => some (w.goto .check, { k with seg := { k.seg with cnt := n } })
  | .check => some (if k.seg.cnt = -1 then w.die else w.goto .release, k)
  | .release => onSem (releaseSem readSem a k.sems) w k (w.goto .test)
  -- the segment is no longer ours, but nobody else writes `cnt`
  | .test => some (w.goto (if k.seg.cnt = 0 then .finalReserve else .next), k)
  | .next =>
    some ({ w with pc := .reserve, xfrs := w.xfrs + 1,
                   bytes := w.bytes + BitVec.ofInt 32 k.seg.cnt }, k)
  | .finalReserve => onSem (reserveSem writeSem a k.sems) w k (w.goto .rmSem)
  | .rmSem => onCall k.sems.isSome a w k (w.goto .shmdt, { k with sems := none })
  | .shmdt => onCall true a w k (w.goto .rmShm, k)
  | .rmShm => onCall k.shm a w k (w.goto .report, { k with shm := false })
  -- `Sent %d bytes (%d xfrs)`
  | .report => some (w.goto .exited, k)
  | .exited => none

/-- Where the reader is. -/
inductive ReaderPc where
  | semget | shmget | shmat
  | reserve | test | add | write | compare (n : Int) | release
  | shmdt | finalRelease | report | exited
  deriving DecidableEq

/-- svshm_xfr_reader.c. -/
def readerStep (a : Ans) (r : Proc ReaderPc) (k : Shared) : Option (Proc ReaderPc × Shared) :=
  if r.dead then none else
  match r.pc with
  | .semget => onCall k.sems.isSome a r k (r.goto .shmget, k)
  | .shmget => onCall k.shm a r k (r.goto .shmat, k)
  | .shmat => onCall k.shm a r k (r.goto .reserve, k)
  | .reserve => onSem (reserveSem readSem a k.sems) r k (r.goto .test)
  | .test => some (r.goto (if k.seg.cnt = 0 then .shmdt else .add), k)
  | .add => some ({ r with pc := .write, bytes := r.bytes + BitVec.ofInt 32 k.seg.cnt }, k)
  | .write =>
    match a with
    | .done n =>
      if n ≤ k.seg.cnt.toNat then
        some (r.goto (.compare n), { k with output := k.output ++ k.seg.buf.take n })
      else none
    | _ => some (r.goto (.compare (-1)), k)
  | .compare n => some (if n = k.seg.cnt then r.goto .release else r.die, k)
  | .release =>
    onSem (releaseSem writeSem a k.sems) r k { r with pc := .reserve, xfrs := r.xfrs + 1 }
  | .shmdt => onCall true a r k (r.goto .finalRelease, k)
  | .finalRelease => onSem (releaseSem writeSem a k.sems) r k (r.goto .report)
  -- `Received %d bytes (%d xfrs)`; the writer need not wait for that
  | .report => some (r.goto .exited, k)
  | .exited => none

/-- Both processes and what they share. -/
structure State where
  w : Proc WriterPc
  r : Proc ReaderPc
  k : Shared

/-- Whose step it is, and what the kernel answers. -/
inductive Act where
  | writer (a : Ans)
  | reader (a : Ans)
  deriving DecidableEq

def step (bufSize : Nat) (fresh : SemVals) (s : State) : Act → Option State
  | .writer a => (writerStep bufSize fresh a s.w s.k).map fun wk => ⟨wk.1, s.r, wk.2⟩
  | .reader a => (readerStep a s.r s.k).map fun rk => ⟨s.w, rk.1, rk.2⟩

/-- Neither the set nor the segment exists, and `inp` is the writer's standard input. -/
def start (inp : List UInt8) : State :=
  ⟨⟨.semget, false, 0, 0⟩, ⟨.semget, false, 0, 0⟩, ⟨none, false, ⟨0, []⟩, inp, []⟩⟩

/-! ## What a call can do -/

section Calls

variable {a : Ans} {p p' next : Proc Pc} {k k' : Shared} {possible : Bool} {nk : Proc Pc × Shared}
  {semNum : Nat}

theorem onCall_cases (h : onCall possible a p k nk = some (p', k')) :
    (possible = true ∧ p' = nk.1 ∧ k' = nk.2) ∨ (p' = p.die ∧ k' = k) := by
  cases a with
  | done n =>
    cases possible with
    | true => cases h; exact Or.inl ⟨rfl, rfl, rfl⟩
    | false => nomatch h
  | eintr => cases h; exact Or.inr ⟨rfl, rfl⟩
  | error => cases h; exact Or.inr ⟨rfl, rfl⟩

/-- After a round of `reserveSem`: it was taken, or nothing has changed. -/
theorem onSem_reserve (h : onSem (reserveSem semNum a k.sems) p k next = some (p', k')) :
    (∃ v, k.sems = some v ∧ 0 < v semNum ∧ p' = next ∧
      k' = { k with sems := some (Function.update v semNum (v semNum - 1)) }) ∨
    (p' = p ∧ k' = k ∧ a = .eintr) ∨ (p' = p.die ∧ k' = k) := by
  cases a with
  | done n =>
    obtain ⟨call, hcall, hp⟩ := Option.map_eq_some_iff.mp h
    obtain ⟨vals, hvals, rfl⟩ := Option.map_eq_some_iff.mp hcall
    obtain ⟨v, hv, htake⟩ := Option.bind_eq_some_iff.mp hvals
    obtain ⟨hpos, rfl⟩ := semop_take.mp htake
    cases hp
    exact Or.inl ⟨v, hv, hpos, rfl, rfl⟩
  | eintr => cases h; exact Or.inr (Or.inl ⟨rfl, rfl, rfl⟩)
  | error => cases h; exact Or.inr (Or.inr ⟨rfl, rfl⟩)

theorem onSem_release (h : onSem (releaseSem semNum a k.sems) p k next = some (p', k')) :
    (∃ v, k.sems = some v ∧ p' = next ∧
      k' = { k with sems := some (Function.update v semNum (v semNum + 1)) }) ∨
    (p' = p.die ∧ k' = k) := by
  cases a with
  | done n =>
    obtain ⟨call, hcall, hp⟩ := Option.map_eq_some_iff.mp h
    obtain ⟨vals, hvals, rfl⟩ := Option.map_eq_some_iff.mp hcall
    obtain ⟨v, hv, hgive⟩ := Option.bind_eq_some_iff.mp hvals
    obtain rfl := Option.some.inj (semop_give.symm.trans hgive)
    cases hp
    exact Or.inl ⟨v, hv, rfl, rfl⟩
  | eintr => cases h; exact Or.inr ⟨rfl, rfl⟩
  | error => cases h; exact Or.inr ⟨rfl, rfl⟩

theorem onSem_setval {val : Nat}
    (h : onSem (semctlSetval semNum val a k.sems) p k next = some (p', k')) :
    (∃ v, k.sems = some v ∧ p' = next ∧
      k' = { k with sems := some (Function.update v semNum val) }) ∨ (p' = p.die ∧ k' = k) := by
  cases a with
  | done n =>
    obtain ⟨call, hcall, hp⟩ := Option.map_eq_some_iff.mp h
    obtain ⟨v, hv, rfl⟩ := Option.map_eq_some_iff.mp hcall
    cases hp
    exact Or.inl ⟨v, hv, rfl, rfl⟩
  | eintr => cases h; exact Or.inr ⟨rfl, rfl⟩
  | error => cases h; exact Or.inr ⟨rfl, rfl⟩

end Calls

/-! ## The assertions -/

/-- Who may use the segment: nobody yet, one of the two, or the one whose semaphore is 1; `closing`
    when the writer has had its last turn. -/
inductive Turn where
  | setup | toWriter | writer | toReader | reader | closing
  deriving DecidableEq

/-- What the assertions speak of besides the state. -/
structure Ghost where
  turn : Turn
  /-- The empty block has been passed on. -/
  fin : Bool
  /-- The blocks with data that have been passed on. -/
  blocks : BitVec 32

section Assertions

variable (inp : List UInt8) (g : Ghost) (k : Shared)

def SemsAre (x y : Nat) : Prop := ∃ v, k.sems = some v ∧ v writeSem = x ∧ v readSem = y

/-- Nothing is on its way. -/
def Empty : Prop := k.output ++ k.input = inp

/-- The first `n` bytes of the buffer are on their way, and none only at the end of the input. -/
structure Full (n : Int) : Prop where
  nonneg : 0 ≤ n
  bytes : k.output ++ k.seg.buf.take n.toNat ++ k.input = inp
  len : n.toNat ≤ k.seg.buf.length
  eof : n = 0 → k.input = []

/-- The semaphores, and the segment when it is nobody's. -/
def SharedOk : Prop :=
  match g.turn with
  | .setup => k.shm = false ∧ Empty inp k
  | .toWriter => SemsAre k 1 0 ∧ k.shm = true ∧ Empty inp k ∧ (g.fin = true → k.input = [])
  | .writer => SemsAre k 0 0 ∧ k.shm = true
  | .toReader => SemsAre k 0 1 ∧ k.shm = true ∧ Full inp k k.seg.cnt ∧ (k.seg.cnt = 0 ↔ g.fin = true)
  | .reader => SemsAre k 0 0 ∧ k.shm = true
  | .closing => Empty inp k ∧ k.input = []

/-- The writer's counters between two blocks. -/
def Idle (w : Proc WriterPc) : Prop :=
  g.fin = false ∧ w.xfrs = g.blocks ∧
    w.bytes + BitVec.ofNat 32 k.input.length = BitVec.ofNat 32 inp.length

/-- The writer has read a block of `n` bytes, or `read` has failed. -/
def InHand (w : Proc WriterPc) (n : Int) : Prop :=
  g.turn = .writer ∧ g.fin = false ∧ w.xfrs = g.blocks ∧
    (n = -1 ∧ Empty inp k ∨ Full inp k n ∧
      w.bytes + BitVec.ofInt 32 n + BitVec.ofNat 32 k.input.length = BitVec.ofNat 32 inp.length)

/-- The writer has passed a block on and not counted it. -/
def Passed (w : Proc WriterPc) : Prop :=
  (g.turn = .toReader ∨ g.turn = .reader ∨ g.turn = .toWriter) ∧
    w.xfrs + (if g.fin then 0 else 1) = g.blocks ∧
    w.bytes + BitVec.ofInt 32 k.seg.cnt + BitVec.ofNat 32 k.input.length =
      BitVec.ofNat 32 inp.length

/-- The writer has sent everything. -/
def Sent (w : Proc WriterPc) : Prop :=
  g.turn = .closing ∧ g.fin = true ∧ w.xfrs = g.blocks ∧ w.bytes = BitVec.ofNat 32 inp.length

def WriterOk (w : Proc WriterPc) : Prop :=
  match w.pc with
  | .semget => g.turn = .setup ∧ Idle inp g k w
  | .initWrite => g.turn = .setup ∧ Idle inp g k w ∧ k.sems.isSome = true
  | .initRead => g.turn = .setup ∧ Idle inp g k w ∧ ∃ v, k.sems = some v ∧ v writeSem = 1
  | .shmget => g.turn = .setup ∧ Idle inp g k w ∧ SemsAre k 1 0
  | .shmat => g.turn = .toWriter ∧ Idle inp g k w
  | .reserve => (g.turn = .toReader ∨ g.turn = .reader ∨ g.turn = .toWriter) ∧ Idle inp g k w
  | .read => g.turn = .writer ∧ Idle inp g k w ∧ Empty inp k
  | .store n => InHand inp g k w n
  | .check => InHand inp g k w k.seg.cnt
  | .release => InHand inp g k w k.seg.cnt ∧ k.seg.cnt ≠ -1
  | .test => Passed inp g k w ∧ (k.seg.cnt = 0 ↔ g.fin = true)
  | .next => Passed inp g k w ∧ g.fin = false
  | .finalReserve => Passed inp g k w ∧ g.fin = true ∧ k.seg.cnt = 0
  | .rmSem => Sent inp g w ∧ k.sems.isSome = true ∧ k.shm = true
  | .shmdt => Sent inp g w ∧ k.shm = true ∧ k.sems = none
  | .rmShm => Sent inp g w ∧ k.shm = true ∧ k.sems = none
  | .report => Sent inp g w ∧ k.shm = false ∧ k.sems = none
  | .exited => Sent inp g w ∧ k.shm = false ∧ k.sems = none

/-- The reader waits for its turn. -/
def Waiting (r : Proc ReaderPc) : Prop :=
  (g.turn = .setup ∨ g.turn = .toWriter ∧ g.fin = false ∨ g.turn = .writer ∨ g.turn = .toReader) ∧
    r.bytes = BitVec.ofNat 32 k.output.length ∧
    r.xfrs + (if g.turn = .toReader ∧ g.fin = false then 1 else 0) = g.blocks

/-- The reader has a block with data. -/
def Reading (r : Proc ReaderPc) : Prop :=
  g.turn = .reader ∧ g.fin = false ∧ k.seg.cnt ≠ 0 ∧ r.xfrs + 1 = g.blocks

/-- The reader has seen the empty block. -/
def Received (r : Proc ReaderPc) : Prop :=
  g.fin = true ∧ r.bytes = BitVec.ofNat 32 k.output.length ∧ r.xfrs = g.blocks

def ReaderOk (r : Proc ReaderPc) : Prop :=
  match r.pc with
  | .semget => Waiting g k r
  | .shmget => Waiting g k r
  | .shmat => Waiting g k r ∧ g.turn ≠ .setup
  | .reserve => Waiting g k r ∧ g.turn ≠ .setup
  | .test =>
    g.turn = .reader ∧ Full inp k k.seg.cnt ∧ (k.seg.cnt = 0 ↔ g.fin = true) ∧
      r.bytes = BitVec.ofNat 32 k.output.length ∧ r.xfrs + (if g.fin then 0 else 1) = g.blocks
  | .add => Reading g k r ∧ Full inp k k.seg.cnt ∧ r.bytes = BitVec.ofNat 32 k.output.length
  | .write =>
    Reading g k r ∧ Full inp k k.seg.cnt ∧
      r.bytes = BitVec.ofNat 32 k.output.length + BitVec.ofInt 32 k.seg.cnt
  | .compare n =>
    Reading g k r ∧ k.output <+: inp ∧
      (n = k.seg.cnt → Empty inp k ∧ r.bytes = BitVec.ofNat 32 k.output.length)
  | .release => Reading g k r ∧ Empty inp k ∧ r.bytes = BitVec.ofNat 32 k.output.length
  | .shmdt => g.turn = .reader ∧ Received g k r ∧ Empty inp k ∧ k.input = []
  | .finalRelease => g.turn = .reader ∧ Received g k r ∧ Empty inp k ∧ k.input = []
  | .report => (g.turn = .toWriter ∨ g.turn = .closing) ∧ Received g k r
  | .exited => (g.turn = .toWriter ∨ g.turn = .closing) ∧ Received g k r

end Assertions

/-- All three hold of the state, for some turn. -/
structure Inv (inp : List UInt8) (g : Ghost) (s : State) : Prop where
  shared : SharedOk inp g s.k
  writer : WriterOk inp g s.k s.w
  reader : ReaderOk inp g s.k s.r

/-! ## What the other process does not destroy -/

section Stable

variable {inp : List UInt8} {g g' : Ghost} {k k' : Shared} {r : Proc ReaderPc} {w : Proc WriterPc}

/-- Outside its turn the reader waits or has finished, and only its output matters. -/
theorem ReaderOk.handover (h : ReaderOk inp g k r) (hturn : g.turn ≠ .reader)
    (hwait : Waiting g k r → Waiting g' k' r) (hset : g.turn ≠ .setup → g'.turn ≠ .setup)
    (hexit : (g.turn = .toWriter ∨ g.turn = .closing) → Received g k r →
      (g'.turn = .toWriter ∨ g'.turn = .closing) ∧ Received g' k' r) : ReaderOk inp g' k' r := by
  obtain ⟨pc, dead, xfrs, bytes⟩ := r
  cases pc with
  | semget => exact hwait h
  | shmget => exact hwait h
  | shmat => exact ⟨hwait h.1, hset h.2⟩
  | reserve => exact ⟨hwait h.1, hset h.2⟩
  | test => exact absurd h.1 hturn
  | add => exact absurd h.1.1 hturn
  | write => exact absurd h.1.1 hturn
  | compare n => exact absurd h.1.1 hturn
  | release => exact absurd h.1.1 hturn
  | shmdt => exact absurd h.1 hturn
  | finalRelease => exact absurd h.1 hturn
  | report => exact hexit h.1 h.2
  | exited => exact hexit h.1 h.2

/-- The turn stays where it is. -/
theorem ReaderOk.frame (h : ReaderOk inp g k r) (hturn : g.turn ≠ .reader)
    (hout : k'.output = k.output) : ReaderOk inp g k' r := by
  refine h.handover hturn (fun hw => ?_) id (fun ht hr => ⟨ht, ?_⟩)
  · rw [Waiting, hout]
    exact hw
  · rw [Received, hout]
    exact hr

/-- The reader takes the turn or gives it back, and the writer's counters stay right. -/
theorem WriterOk.handover (h : WriterOk inp g k w)
    (hfrom : g.turn = .toReader ∨ g.turn = .reader)
    (hto : g'.turn = .reader ∨ g'.turn = .toWriter) (hfin : g'.fin = g.fin)
    (hblocks : g'.blocks = g.blocks) (hseg : k'.seg = k.seg) (hin : k'.input = k.input) :
    WriterOk inp g' k' w := by
  obtain ⟨pc, dead, xfrs, bytes⟩ := w
  have hne : ∀ t, t ≠ .toReader → t ≠ .reader → g.turn ≠ t := by
    rintro t h1 h2 rfl
    exact hfrom.elim h1 h2
  have hto' : g'.turn = .toReader ∨ g'.turn = .reader ∨ g'.turn = .toWriter := Or.inr hto
  have hpassed : Passed inp g k ⟨pc, dead, xfrs, bytes⟩ → Passed inp g' k' ⟨pc, dead, xfrs, bytes⟩ := by
    rintro ⟨-, hx, hb⟩
    refine ⟨hto', ?_, ?_⟩
    · rw [hfin, hblocks]
      exact hx
    · rw [hseg, hin]
      exact hb
  cases pc with
  | semget => exact absurd h.1 (hne _ (by decide) (by decide))
  | initWrite => exact absurd h.1 (hne _ (by decide) (by decide))
  | initRead => exact absurd h.1 (hne _ (by decide) (by decide))
  | shmget => exact absurd h.1 (hne _ (by decide) (by decide))
  | shmat => exact absurd h.1 (hne _ (by decide) (by decide))
  | reserve =>
    obtain ⟨-, hf, hx, hb⟩ := h
    refine ⟨hto', ?_, ?_, ?_⟩
    · rw [hfin]
      exact hf
    · rw [hblocks]
      exact hx
    · rw [hin]
      exact hb
  | read => exact absurd h.1 (hne _ (by decide) (by decide))
  | store n => exact absurd h.1 (hne _ (by decide) (by decide))
  | check => exact absurd h.1 (hne _ (by decide) (by decide))
  | release => exact absurd h.1.1 (hne _ (by decide) (by decide))
  | test =>
    refine ⟨hpassed h.1, ?_⟩
    rw [hseg, hfin]
    exact h.2
  | next => exact ⟨hpassed h.1, hfin.trans h.2⟩
  | finalReserve =>
    refine ⟨hpassed h.1, hfin.trans h.2.1, ?_⟩
    rw [hseg]
    exact h.2.2
  | rmSem => exact absurd h.1.1 (hne _ (by decide) (by decide))
  | shmdt => exact absurd h.1.1 (hne _ (by decide) (by decide))
  | rmShm => exact absurd h.1.1 (hne _ (by decide) (by decide))
  | report => exact absurd h.1.1 (hne _ (by decide) (by decide))
  | exited => exact absurd h.1.1 (hne _ (by decide) (by decide))

end Stable

/-! ## One step -/

section Step

variable {inp : List UInt8} {g : Ghost} {k k' : Shared} {r r' : Proc ReaderPc} {w w' : Proc WriterPc}
  {bufSize : Nat} {fresh : SemVals} {a : Ans} {v : SemVals}

theorem SemsAre.update_write {x y z : Nat} (h : SemsAre k x y) (hv : k.sems = some v) :
    v writeSem = x ∧ v readSem = y ∧
      SemsAre { k with sems := some (Function.update v writeSem z) } z y := by
  obtain ⟨v', hv', hx, hy⟩ := h
  obtain rfl := Option.some.inj (hv.symm.trans hv')
  exact ⟨hx, hy, _, rfl, Function.update_self .., hy⟩

theorem SemsAre.update_read {x y z : Nat} (h : SemsAre k x y) (hv : k.sems = some v) :
    v writeSem = x ∧ v readSem = y ∧
      SemsAre { k with sems := some (Function.update v readSem z) } x z := by
  obtain ⟨v', hv', hx, hy⟩ := h
  obtain rfl := Option.some.inj (hv.symm.trans hv')
  exact ⟨hx, hy, _, rfl, hx, Function.update_self ..⟩

/-- Only in the turn `toWriter` can the writer take its semaphore. -/
theorem turn_of_writeSem (hk : SharedOk inp g k) (hv : k.sems = some v) (hpos : 0 < v writeSem)
    (hturn : g.turn = .toReader ∨ g.turn = .reader ∨ g.turn = .toWriter) : g.turn = .toWriter := by
  rcases hturn with ht | ht | ht
  · rw [SharedOk, ht] at hk
    have hzero := (hk.1.update_write (z := 0) hv).1
    omega
  · rw [SharedOk, ht] at hk
    have hzero := (hk.1.update_write (z := 0) hv).1
    omega
  · exact ht

/-- Only in the turn `toReader` can the reader take its semaphore. -/
theorem turn_of_readSem (hk : SharedOk inp g k) (hv : k.sems = some v) (hpos : 0 < v readSem)
    (hwait : Waiting g k r) (hset : g.turn ≠ .setup) : g.turn = .toReader := by
  rcases hwait.1 with ht | ⟨ht, -⟩ | ht | ht
  · exact absurd ht hset
  · rw [SharedOk, ht] at hk
    have hzero := (hk.1.update_read (z := 0) hv).2.1
    omega
  · rw [SharedOk, ht] at hk
    have hzero := (hk.1.update_read (z := 0) hv).2.1
    omega
  · exact ht

/-- The assertions do not ask whether a process lives. -/
theorem Inv.writer_dies (h : Inv inp g ⟨w, r, k⟩) : Inv inp g ⟨w.die, r, k⟩ :=
  ⟨h.shared, h.writer, h.reader⟩

theorem Inv.reader_dies (h : Inv inp g ⟨w, r, k⟩) : Inv inp g ⟨w, r.die, k⟩ :=
  ⟨h.shared, h.writer, h.reader⟩

/-- The set is made and initialised before there is a segment. -/
theorem Inv.setup_sems (h : Inv inp g ⟨w, r, k⟩) (hturn : g.turn = .setup) (sems : Option SemVals) :
    SharedOk inp g { k with sems := sems } ∧ ReaderOk inp g { k with sems := sems } r := by
  have hk := h.shared
  refine ⟨?_, h.reader.frame (by rw [hturn]; decide) rfl⟩
  rw [SharedOk, hturn] at hk ⊢
  exact hk

/-- The segment is made, and the writer may begin. -/
theorem Inv.writer_creates (h : Inv inp g ⟨w, r, k⟩) (hpc : w.pc = .shmget) :
    ∃ g', Inv inp g' ⟨w.goto .shmat, r,
      if k.shm then k else { k with shm := true, seg := ⟨0, List.replicate bufSize 0⟩ }⟩ := by
  obtain ⟨hk, hw, hr⟩ := h
  rw [WriterOk, hpc] at hw
  obtain ⟨hturn, hidle, hsems⟩ := hw
  rw [SharedOk, hturn] at hk
  obtain ⟨hshm, hempty⟩ := hk
  rw [if_neg (by rw [hshm]; decide)]
  refine ⟨{ g with turn := .toWriter }, ⟨hsems, rfl, hempty, fun hf => ?_⟩, ⟨rfl, hidle⟩, ?_⟩
  · exact absurd hf (by rw [hidle.1]; decide)
  · refine hr.handover (by rw [hturn]; decide) (fun hwait => ?_) (fun _ => nofun) fun ht _ => ?_
    · obtain ⟨-, hb, hx⟩ := hwait
      refine ⟨Or.inr (Or.inl ⟨rfl, hidle.1⟩), hb, ?_⟩
      rw [if_neg (by rw [hturn]; nofun)] at hx
      rw [if_neg nofun]
      exact hx
    · rw [hturn] at ht
      exact ht.elim nofun nofun

/-- `reserveSem(semid, WRITE_SEM)` in the loop has returned. -/
theorem Inv.writer_takes (h : Inv inp g ⟨w, r, k⟩) (hpc : w.pc = .reserve) (hv : k.sems = some v)
    (hpos : 0 < v writeSem) :
    Inv inp { g with turn := .writer }
      ⟨w.goto .read, r, { k with sems := some (Function.update v writeSem (v writeSem - 1)) }⟩ := by
  obtain ⟨hk, hw, hr⟩ := h
  rw [WriterOk, hpc] at hw
  obtain ⟨hturn, hidle⟩ := hw
  have ht := turn_of_writeSem hk hv hpos hturn
  rw [SharedOk, ht] at hk
  obtain ⟨hsems, hshm, hempty, -⟩ := hk
  obtain ⟨hone, -, hsems'⟩ := hsems.update_write (z := 0) hv
  have hsub : v writeSem - 1 = 0 := by omega
  rw [hsub]
  refine ⟨⟨hsems', hshm⟩, ⟨rfl, hidle, hempty⟩, ?_⟩
  refine hr.handover (by rw [ht]; decide) (fun hwait => ?_) (fun _ => nofun) fun _ hrec => ?_
  · obtain ⟨-, hb, hx⟩ := hwait
    refine ⟨Or.inr (Or.inr (Or.inl rfl)), hb, ?_⟩
    rw [if_neg (by rw [ht]; nofun)] at hx
    rw [if_neg nofun]
    exact hx
  · exact absurd hrec.1 (by rw [hidle.1]; decide)

/-- The last `reserveSem(semid, WRITE_SEM)` has returned: the reader has finished. -/
theorem Inv.writer_takes_last (h : Inv inp g ⟨w, r, k⟩) (hpc : w.pc = .finalReserve)
    (hv : k.sems = some v) (hpos : 0 < v writeSem) :
    Inv inp { g with turn := .closing }
      ⟨w.goto .rmSem, r, { k with sems := some (Function.update v writeSem (v writeSem - 1)) }⟩ := by
  obtain ⟨hk, hw, hr⟩ := h
  rw [WriterOk, hpc] at hw
  obtain ⟨⟨hturn, hx, hb⟩, hfin, hcnt⟩ := hw
  have ht := turn_of_writeSem hk hv hpos hturn
  rw [SharedOk, ht] at hk
  obtain ⟨-, hshm, hempty, heof⟩ := hk
  have hin : k.input = [] := heof hfin
  refine ⟨⟨hempty, hin⟩, ⟨⟨rfl, hfin, ?_, ?_⟩, rfl, hshm⟩, ?_⟩
  · show w.xfrs = g.blocks
    simpa [hfin] using hx
  · show w.bytes = BitVec.ofNat 32 inp.length
    have hcnt : k.seg.cnt = 0 := hcnt
    simpa [hcnt, hin] using hb
  · refine hr.handover (by rw [ht]; decide) (fun hwait => ?_) (fun _ => nofun) fun _ hrec => ?_
    · -- a reader that waits in this turn has not seen the empty block
      rcases hwait.1 with h | ⟨-, h⟩ | h | h
      · exact absurd (ht.symm.trans h) (by decide)
      · exact absurd (hfin.symm.trans h) (by decide)
      · exact absurd (ht.symm.trans h) (by decide)
      · exact absurd (ht.symm.trans h) (by decide)
    · exact ⟨Or.inr rfl, hrec⟩

/-- `read` fills the buffer. -/
theorem Full.of_read {n : Nat} (h : Empty inp k) (hn : n ≤ k.input.length)
    (heof : n = 0 → k.input = []) :
    Full inp { k with seg := k.seg.fill (k.input.take n), input := k.input.drop n } n where
  nonneg := Int.natCast_nonneg n
  bytes := by
    have hlen : (k.input.take n).length = n := List.length_take_of_le hn
    show k.output ++ (k.input.take n ++ _).take (Int.toNat n) ++ k.input.drop n = inp
    rw [Int.toNat_natCast, List.take_append_of_le_length (Nat.le_of_eq hlen.symm),
      List.take_of_length_le (Nat.le_of_eq hlen), List.append_assoc, List.take_append_drop]
    exact h
  len := by
    show Int.toNat n ≤ (k.input.take n ++ _).length
    rw [Int.toNat_natCast, List.length_append, List.length_take_of_le hn]
    exact Nat.le_add_right _ _
  eof := fun h0 => by
    have h0 : n = 0 := by exact_mod_cast h0
    show k.input.drop n = []
    rw [heof h0, List.drop_nil]

/-- The writer has the block in its buffer. -/
theorem Inv.writer_reads {n : Nat} (h : Inv inp g ⟨w, r, k⟩) (hpc : w.pc = .read)
    (hn : n ≤ k.input.length) (heof : n = 0 → k.input = []) :
    Inv inp g ⟨w.goto (.store n), r,
      { k with seg := k.seg.fill (k.input.take n), input := k.input.drop n }⟩ := by
  obtain ⟨hk, hw, hr⟩ := h
  rw [WriterOk, hpc] at hw
  obtain ⟨hturn, ⟨hfin, hx, hb⟩, hempty⟩ := hw
  refine ⟨?_, ⟨hturn, hfin, hx, Or.inr ⟨Full.of_read hempty hn heof, ?_⟩⟩, ?_⟩
  · rw [SharedOk, hturn] at hk ⊢
    exact hk
  · have hsplit : k.input.length = n + (k.input.drop n).length := by
      rw [List.length_drop]
      omega
    rw [hsplit, BitVec.ofNat_add, ← BitVec.add_assoc] at hb
    exact hb
  · exact hr.frame (by rw [hturn]; decide) rfl

/-- The block is passed on; the empty one is the last. -/
theorem Inv.writer_gives (h : Inv inp g ⟨w, r, k⟩) (hpc : w.pc = .release) (hv : k.sems = some v) :
    Inv inp
      { turn := .toReader, fin := decide (k.seg.cnt = 0),
        blocks := g.blocks + if k.seg.cnt = 0 then 0 else 1 }
      ⟨w.goto .test, r, { k with sems := some (Function.update v readSem (v readSem + 1)) }⟩ := by
  obtain ⟨hk, hw, hr⟩ := h
  rw [WriterOk, hpc] at hw
  obtain ⟨⟨hturn, hfin, hx, hhand⟩, hcnt⟩ := hw
  rw [SharedOk, hturn] at hk
  obtain ⟨hsems, hshm⟩ := hk
  obtain ⟨-, hzero, hsems'⟩ := hsems.update_read (z := 1) hv
  rw [hzero]
  rcases hhand with ⟨hbad, -⟩ | ⟨hfull, hb⟩
  · exact absurd hbad hcnt
  · have hiff : k.seg.cnt = 0 ↔ decide (k.seg.cnt = 0) = true := decide_eq_true_iff.symm
    refine ⟨⟨hsems', hshm, ⟨hfull.nonneg, hfull.bytes, hfull.len, hfull.eof⟩, hiff⟩,
      ⟨⟨Or.inl rfl, ?_, hb⟩, hiff⟩, ?_⟩
    · show w.xfrs + (if decide (k.seg.cnt = 0) = true then 0 else 1) =
        g.blocks + if k.seg.cnt = 0 then 0 else 1
      rw [hx]
      simp only [decide_eq_true_eq]
    · refine hr.handover (by rw [hturn]; decide) (fun hwait => ?_) (fun _ => nofun) fun ht _ => ?_
      · obtain ⟨-, hb, hxr⟩ := hwait
        refine ⟨Or.inr (Or.inr (Or.inr rfl)), hb, ?_⟩
        rw [if_neg (by rw [hturn]; nofun)] at hxr
        rw [← hxr]
        by_cases h0 : k.seg.cnt = 0
        · simp [h0]
        · simp [h0]
      · rw [hturn] at ht
        exact ht.elim nofun nofun

/-- **A step of the writer.** -/
theorem Inv.writer_step (h : Inv inp g ⟨w, r, k⟩)
    (hstep : writerStep bufSize fresh a w k = some (w', k')) : ∃ g', Inv inp g' ⟨w', r, k'⟩ := by
  have hk := h.shared
  have hw := h.writer
  have hr := h.reader
  unfold writerStep at hstep
  split at hstep
  · nomatch hstep
  rw [WriterOk] at hw
  cases hpc : w.pc with
  | semget =>
    rw [hpc] at hstep hw
    rcases onCall_cases hstep with ⟨-, rfl, rfl⟩ | ⟨rfl, rfl⟩
    · obtain ⟨hk', hr'⟩ := h.setup_sems hw.1 (some (k.sems.getD fresh))
      exact ⟨g, hk', ⟨hw.1, hw.2, rfl⟩, hr'⟩
    · exact ⟨g, h.writer_dies⟩
  | initWrite =>
    rw [hpc] at hstep hw
    rcases onSem_setval hstep with ⟨v, hv, rfl, rfl⟩ | ⟨rfl, rfl⟩
    · obtain ⟨hk', hr'⟩ := h.setup_sems hw.1 (some (Function.update v writeSem 1))
      exact ⟨g, hk', ⟨hw.1, hw.2.1, _, rfl, Function.update_self ..⟩, hr'⟩
    · exact ⟨g, h.writer_dies⟩
  | initRead =>
    rw [hpc] at hstep hw
    rcases onSem_setval hstep with ⟨v, hv, rfl, rfl⟩ | ⟨rfl, rfl⟩
    · obtain ⟨hk', hr'⟩ := h.setup_sems hw.1 (some (Function.update v readSem 0))
      obtain ⟨v', hv', hone⟩ := hw.2.2
      obtain rfl := Option.some.inj (hv.symm.trans hv')
      exact ⟨g, hk', ⟨hw.1, hw.2.1, _, rfl, hone, Function.update_self ..⟩, hr'⟩
    · exact ⟨g, h.writer_dies⟩
  | shmget =>
    rw [hpc] at hstep hw
    rcases onCall_cases hstep with ⟨-, rfl, rfl⟩ | ⟨rfl, rfl⟩
    · exact h.writer_creates hpc
    · exact ⟨g, h.writer_dies⟩
  | shmat =>
    rw [hpc] at hstep hw
    rcases onCall_cases hstep with ⟨-, rfl, rfl⟩ | ⟨rfl, rfl⟩
    · exact ⟨g, hk, ⟨Or.inr (Or.inr hw.1), hw.2⟩, hr⟩
    · exact ⟨g, h.writer_dies⟩
  | reserve =>
    rw [hpc] at hstep
    rcases onSem_reserve hstep with ⟨v, hv, hpos, rfl, rfl⟩ | ⟨rfl, rfl, -⟩ | ⟨rfl, rfl⟩
    · exact ⟨_, h.writer_takes hpc hv hpos⟩
    · exact ⟨g, h⟩
    · exact ⟨g, h.writer_dies⟩
  | read =>
    rw [hpc] at hstep hw
    have hfail : Inv inp g ⟨w.goto (.store (-1)), r, k⟩ :=
      ⟨hk, ⟨hw.1, hw.2.1.1, hw.2.1.2.1, Or.inl ⟨rfl, hw.2.2⟩⟩, hr⟩
    cases a with
    | done n =>
      dsimp only at hstep
      split at hstep
      · rename_i hn
        cases hstep
        exact ⟨g, h.writer_reads hpc hn.2.1 hn.2.2⟩
      · nomatch hstep
    | eintr => cases hstep; exact ⟨g, hfail⟩
    | error => cases hstep; exact ⟨g, hfail⟩
  | store n =>
    rw [hpc] at hstep hw
    cases hstep
    refine ⟨g, ?_, ?_, hr.frame (by rw [hw.1]; decide) rfl⟩
    · rw [SharedOk, hw.1] at hk ⊢
      exact hk
    · obtain ⟨hturn, hfin, hx, hempty | ⟨hfull, hb⟩⟩ := hw
      · exact ⟨hturn, hfin, hx, Or.inl hempty⟩
      · exact ⟨hturn, hfin, hx, Or.inr ⟨⟨hfull.nonneg, hfull.bytes, hfull.len, hfull.eof⟩, hb⟩⟩
  | check =>
    rw [hpc] at hstep hw
    cases hstep
    by_cases hbad : k.seg.cnt = -1
    · rw [if_pos hbad]
      exact ⟨g, h.writer_dies⟩
    · rw [if_neg hbad]
      exact ⟨g, hk, ⟨hw, hbad⟩, hr⟩
  | release =>
    rw [hpc] at hstep
    rcases onSem_release hstep with ⟨v, hv, rfl, rfl⟩ | ⟨rfl, rfl⟩
    · exact ⟨_, h.writer_gives hpc hv⟩
    · exact ⟨g, h.writer_dies⟩
  | test =>
    rw [hpc] at hstep hw
    cases hstep
    by_cases h0 : k.seg.cnt = 0
    · rw [if_pos h0]
      exact ⟨g, hk, ⟨hw.1, hw.2.mp h0, h0⟩, hr⟩
    · rw [if_neg h0]
      exact ⟨g, hk, ⟨hw.1, Bool.eq_false_iff.mpr fun hf => h0 (hw.2.mpr hf)⟩, hr⟩
  | next =>
    rw [hpc] at hstep hw
    cases hstep
    obtain ⟨⟨hturn, hx, hb⟩, hfin⟩ := hw
    refine ⟨g, hk, ⟨hturn, hfin, ?_, hb⟩, hr⟩
    rw [hfin] at hx
    exact hx
  | finalReserve =>
    rw [hpc] at hstep
    rcases onSem_reserve hstep with ⟨v, hv, hpos, rfl, rfl⟩ | ⟨rfl, rfl, -⟩ | ⟨rfl, rfl⟩
    · exact ⟨_, h.writer_takes_last hpc hv hpos⟩
    · exact ⟨g, h⟩
    · exact ⟨g, h.writer_dies⟩
  | rmSem =>
    rw [hpc] at hstep hw
    rcases onCall_cases hstep with ⟨-, rfl, rfl⟩ | ⟨rfl, rfl⟩
    · refine ⟨g, ?_, ⟨hw.1, hw.2.2, rfl⟩, hr.frame (by rw [hw.1.1]; decide) rfl⟩
      rw [SharedOk, hw.1.1] at hk ⊢
      exact hk
    · exact ⟨g, h.writer_dies⟩
  | shmdt =>
    rw [hpc] at hstep hw
    rcases onCall_cases hstep with ⟨-, rfl, rfl⟩ | ⟨rfl, rfl⟩
    · exact ⟨g, hk, hw, hr⟩
    · exact ⟨g, h.writer_dies⟩
  | rmShm =>
    rw [hpc] at hstep hw
    rcases onCall_cases hstep with ⟨-, rfl, rfl⟩ | ⟨rfl, rfl⟩
    · refine ⟨g, ?_, ⟨hw.1, rfl, hw.2.2⟩, hr.frame (by rw [hw.1.1]; decide) rfl⟩
      rw [SharedOk, hw.1.1] at hk ⊢
      exact hk
    · exact ⟨g, h.writer_dies⟩
  | report =>
    rw [hpc] at hstep hw
    cases hstep
    exact ⟨g, hk, hw, hr⟩
  | exited =>
    rw [hpc] at hstep
    nomatch hstep

/-- `reserveSem(semid, READ_SEM)` has returned. -/
theorem Inv.reader_takes (h : Inv inp g ⟨w, r, k⟩) (hpc : r.pc = .reserve) (hv : k.sems = some v)
    (hpos : 0 < v readSem) :
    Inv inp { g with turn := .reader }
      ⟨w, r.goto .test, { k with sems := some (Function.update v readSem (v readSem - 1)) }⟩ := by
  obtain ⟨hk, hw, hr⟩ := h
  rw [ReaderOk, hpc] at hr
  obtain ⟨hwait, hset⟩ := hr
  have ht := turn_of_readSem hk hv hpos hwait hset
  rw [SharedOk, ht] at hk
  obtain ⟨hsems, hshm, hfull, hfin⟩ := hk
  obtain ⟨-, hone, hsems'⟩ := hsems.update_read (z := 0) hv
  have hsub : v readSem - 1 = 0 := by omega
  rw [hsub]
  obtain ⟨-, hb, hx⟩ := hwait
  refine ⟨⟨hsems', hshm⟩, hw.handover (Or.inl ht) (Or.inl rfl) rfl rfl rfl rfl,
    rfl, ⟨hfull.nonneg, hfull.bytes, hfull.len, hfull.eof⟩, hfin, hb, ?_⟩
  show r.xfrs + (if g.fin = true then 0 else 1) = g.blocks
  rw [← hx, ht]
  cases g.fin <;> rfl

/-- The reader gives the segment back. -/
theorem Inv.reader_gives (h : Inv inp g ⟨w, r, k⟩) (hpc : r.pc = .release) (hv : k.sems = some v) :
    Inv inp { g with turn := .toWriter }
      ⟨w, { r with pc := .reserve, xfrs := r.xfrs + 1 },
        { k with sems := some (Function.update v writeSem (v writeSem + 1)) }⟩ := by
  obtain ⟨hk, hw, hr⟩ := h
  rw [ReaderOk, hpc] at hr
  obtain ⟨⟨ht, hfin, -, hx⟩, hempty, hb⟩ := hr
  rw [SharedOk, ht] at hk
  obtain ⟨hsems, hshm⟩ := hk
  obtain ⟨hzero, -, hsems'⟩ := hsems.update_write (z := 1) hv
  rw [hzero]
  refine ⟨⟨hsems', hshm, hempty, fun hf => ?_⟩,
    hw.handover (Or.inr ht) (Or.inr rfl) rfl rfl rfl rfl,
    ⟨Or.inr (Or.inl ⟨rfl, hfin⟩), hb, ?_⟩, nofun⟩
  · exact absurd hf (by rw [hfin]; decide)
  · rw [if_neg nofun]
    exact (add_zero _).trans hx

/-- The reader is done. -/
theorem Inv.reader_gives_last (h : Inv inp g ⟨w, r, k⟩) (hpc : r.pc = .finalRelease)
    (hv : k.sems = some v) :
    Inv inp { g with turn := .toWriter }
      ⟨w, r.goto .report, { k with sems := some (Function.update v writeSem (v writeSem + 1)) }⟩ := by
  obtain ⟨hk, hw, hr⟩ := h
  rw [ReaderOk, hpc] at hr
  obtain ⟨ht, hrec, hempty, hin⟩ := hr
  rw [SharedOk, ht] at hk
  obtain ⟨hsems, hshm⟩ := hk
  obtain ⟨hzero, -, hsems'⟩ := hsems.update_write (z := 1) hv
  rw [hzero]
  exact ⟨⟨hsems', hshm, hempty, fun _ => hin⟩,
    hw.handover (Or.inr ht) (Or.inr rfl) rfl rfl rfl rfl, Or.inl rfl, hrec⟩

/-- `write` puts out the block, or the beginning of it. -/
theorem Inv.reader_writes {n : Nat} (h : Inv inp g ⟨w, r, k⟩) (hpc : r.pc = .write)
    (hn : n ≤ k.seg.cnt.toNat) :
    Inv inp g ⟨w, r.goto (.compare n), { k with output := k.output ++ k.seg.buf.take n }⟩ := by
  obtain ⟨hk, hw, hr⟩ := h
  rw [ReaderOk, hpc] at hr
  obtain ⟨hread, hfull, hb⟩ := hr
  have hb : r.bytes = BitVec.ofNat 32 k.output.length + BitVec.ofInt 32 k.seg.cnt := hb
  refine ⟨?_, hw.handover (Or.inr hread.1) (Or.inl hread.1) rfl rfl rfl rfl, hread, ?_, fun hall => ?_⟩
  · rw [SharedOk, hread.1] at hk ⊢
    exact hk
  · have htake : k.seg.buf.take n <+: k.seg.buf.take k.seg.cnt.toNat :=
      List.take_prefix_take_left hn
    have hall : k.output ++ k.seg.buf.take k.seg.cnt.toNat <+: inp :=
      ⟨k.input, hfull.bytes⟩
    exact ((List.prefix_append_right_inj _).mpr htake).trans hall
  · have hall : (n : Int) = k.seg.cnt := hall
    have hnat : k.seg.cnt.toNat = n := by rw [← hall]; exact Int.toNat_natCast n
    refine ⟨?_, ?_⟩
    · have hbytes := hfull.bytes
      rw [hnat] at hbytes
      exact hbytes
    · have hlen : (k.seg.buf.take n).length = n :=
        List.length_take_of_le (hnat ▸ hfull.len)
      show r.bytes = BitVec.ofNat 32 (k.output ++ k.seg.buf.take n).length
      rw [hb, ← hall, BitVec.ofInt_natCast, List.length_append, hlen, BitVec.ofNat_add]

/-- **A step of the reader.** -/
theorem Inv.reader_step (h : Inv inp g ⟨w, r, k⟩) (hstep : readerStep a r k = some (r', k')) :
    ∃ g', Inv inp g' ⟨w, r', k'⟩ := by
  have hk := h.shared
  have hw := h.writer
  have hr := h.reader
  unfold readerStep at hstep
  split at hstep
  · nomatch hstep
  rw [ReaderOk] at hr
  cases hpc : r.pc with
  | semget =>
    rw [hpc] at hstep hr
    rcases onCall_cases hstep with ⟨-, rfl, rfl⟩ | ⟨rfl, rfl⟩
    · exact ⟨g, hk, hw, hr⟩
    · exact ⟨g, h.reader_dies⟩
  | shmget =>
    rw [hpc] at hstep hr
    rcases onCall_cases hstep with ⟨hshm, rfl, rfl⟩ | ⟨rfl, rfl⟩
    · -- there is a segment, so the writer is past its preparations
      refine ⟨g, hk, hw, hr, fun ht => ?_⟩
      rw [SharedOk, ht] at hk
      exact absurd (hshm.symm.trans hk.1) (by decide)
    · exact ⟨g, h.reader_dies⟩
  | shmat =>
    rw [hpc] at hstep hr
    rcases onCall_cases hstep with ⟨-, rfl, rfl⟩ | ⟨rfl, rfl⟩
    · exact ⟨g, hk, hw, hr⟩
    · exact ⟨g, h.reader_dies⟩
  | reserve =>
    rw [hpc] at hstep
    rcases onSem_reserve hstep with ⟨v, hv, hpos, rfl, rfl⟩ | ⟨rfl, rfl, -⟩ | ⟨rfl, rfl⟩
    · exact ⟨_, h.reader_takes hpc hv hpos⟩
    · exact ⟨g, h⟩
    · exact ⟨g, h.reader_dies⟩
  | test =>
    rw [hpc] at hstep hr
    cases hstep
    obtain ⟨ht, hfull, hiff, hb, hx⟩ := hr
    by_cases h0 : k.seg.cnt = 0
    · rw [if_pos h0]
      have hfin := hiff.mp h0
      rw [hfin] at hx
      refine ⟨g, hk, hw, ht, ⟨hfin, hb, (add_zero r.xfrs).symm.trans hx⟩, ?_, hfull.eof h0⟩
      have hbytes := hfull.bytes
      rw [h0] at hbytes
      simpa [Empty] using hbytes
    · rw [if_neg h0]
      have hfin : g.fin = false := Bool.eq_false_iff.mpr fun hf => h0 (hiff.mpr hf)
      rw [hfin] at hx
      exact ⟨g, hk, hw, ⟨ht, hfin, h0, hx⟩, hfull, hb⟩
  | add =>
    rw [hpc] at hstep hr
    cases hstep
    obtain ⟨hread, hfull, hb⟩ := hr
    have hb : r.bytes = BitVec.ofNat 32 k.output.length := hb
    refine ⟨g, hk, hw, hread, hfull, ?_⟩
    show r.bytes + _ = _
    rw [hb]
  | write =>
    rw [hpc] at hstep hr
    have hfail : Inv inp g ⟨w, r.goto (.compare (-1)), k⟩ := by
      obtain ⟨hread, hfull, -⟩ := hr
      refine ⟨hk, hw, hread, ⟨_, (List.append_assoc ..).symm.trans hfull.bytes⟩, fun hbad => ?_⟩
      have hnonneg := hfull.nonneg
      have hbad : (-1 : Int) = k.seg.cnt := hbad
      have hnonneg : 0 ≤ k.seg.cnt := hnonneg
      omega
    cases a with
    | done n =>
      dsimp only at hstep
      split at hstep
      · rename_i hn
        cases hstep
        exact ⟨g, h.reader_writes hpc hn⟩
      · nomatch hstep
    | eintr => cases hstep; exact ⟨g, hfail⟩
    | error => cases hstep; exact ⟨g, hfail⟩
  | compare n =>
    rw [hpc] at hstep hr
    cases hstep
    by_cases hn : n = k.seg.cnt
    · rw [if_pos hn]
      obtain ⟨hempty, hb⟩ := hr.2.2 hn
      exact ⟨g, hk, hw, hr.1, hempty, hb⟩
    · rw [if_neg hn]
      exact ⟨g, h.reader_dies⟩
  | release =>
    rw [hpc] at hstep
    rcases onSem_release hstep with ⟨v, hv, rfl, rfl⟩ | ⟨rfl, rfl⟩
    · exact ⟨_, h.reader_gives hpc hv⟩
    · exact ⟨g, h.reader_dies⟩
  | shmdt =>
    rw [hpc] at hstep hr
    rcases onCall_cases hstep with ⟨-, rfl, rfl⟩ | ⟨rfl, rfl⟩
    · exact ⟨g, hk, hw, hr⟩
    · exact ⟨g, h.reader_dies⟩
  | finalRelease =>
    rw [hpc] at hstep
    rcases onSem_release hstep with ⟨v, hv, rfl, rfl⟩ | ⟨rfl, rfl⟩
    · exact ⟨_, h.reader_gives_last hpc hv⟩
    · exact ⟨g, h.reader_dies⟩
  | report =>
    rw [hpc] at hstep hr
    cases hstep
    exact ⟨g, hk, hw, hr⟩
  | exited =>
    rw [hpc] at hstep
    nomatch hstep

/-- **One step of either process.** -/
theorem Inv.step {s s' : State} {act : Act} (h : Inv inp g s)
    (hstep : step bufSize fresh s act = some s') : ∃ g', Inv inp g' s' := by
  cases act with
  | writer a =>
    obtain ⟨⟨w', k'⟩, hw, rfl⟩ := Option.map_eq_some_iff.mp hstep
    exact h.writer_step hw
  | reader a =>
    obtain ⟨⟨r', k'⟩, hr, rfl⟩ := Option.map_eq_some_iff.mp hstep
    exact h.reader_step hr

theorem inv_start (inp : List UInt8) : Inv inp ⟨.setup, false, 0⟩ (start inp) where
  shared := ⟨rfl, rfl⟩
  writer := ⟨rfl, rfl, rfl, BitVec.zero_add _⟩
  reader := ⟨Or.inl rfl, rfl, rfl⟩

/-- **Every reachable state.** -/
theorem inv_of_reach {s : State} (h : Reach (SvshmXfr.step bufSize fresh) Any (start inp) s) :
    ∃ g, Inv inp g s :=
  h.inv (I := fun s => ∃ g, Inv inp g s) ⟨_, inv_start inp⟩
    fun _ _ _ ⟨_, hinv⟩ _ hstep => hinv.step hstep

end Step

end LinuxInterface.SvshmXfr
