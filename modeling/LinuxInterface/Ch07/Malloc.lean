/-
  `my_malloc` and `my_free` (ch07/malloc_and_free.c), as they are written.

  1. **Memory** — a typed heap: every address may hold a block header (`MBlock`: the C struct
     `m_block`), and a store to a field of the header at `p` changes that header only.  This is
     exact as long as no two headers in use overlap, i.e. lie less than `HEADER_SIZE` apart.
     A store beyond the break goes through; on a machine it may fault.

  2. **Machine words** — addresses and sizes are naturals, and every `size_t` operation of the
     source is the wrapping one of `Base.SizeT`.  `NULL` is address `0`, `(void *) -1` is
     `2 ^ 64 - 1`.

  3. **The kernel** — `sbrk` and `brk` move the break or refuse.  Which of the two happens is
     an argument (`ok`), so that every theorem can quantify over it; an `sbrk` that would leave
     the address space always fails.  `sbrk` takes its argument as a SIGNED number.

  4. **Loops** — the three loops that walk the list (`scan`, `add_block`,
     `release_resource_if_need`) are `loopN` with `2 ^ 64` rounds.  The list in memory does not
     change while they run and there are `2 ^ 64` addresses, so a walk that is still going
     after that many rounds has met some block twice and never ends: `none` is divergence.

  The `DEBUG_PRINT` calls only report and are left out.
-/
import LinuxInterface.Base.SizeT
import LinuxInterface.Base.LinkedList
import Mathlib.Logic.Function.Basic

namespace LinuxInterface.Malloc

open LinuxInterface

/-! ## Constants and types -/

/-- The null pointer. -/
def NULL : Nat := 0

/-- `sizeof(m_block)`: "32 bytes". -/
def HEADER_SIZE : Nat := 32

/-- `(void *) -1`, what `sbrk` returns when it fails. -/
def PTR_ERR : Nat := 2 ^ 64 - 1

@[simp] theorem null_eq : NULL = 0 := rfl
@[simp] theorem headerSize_eq : HEADER_SIZE = 32 := rfl

/-- What `sysconf(_SC_PAGESIZE)` returns: a `long` that is larger than a header, and whose
    fourfold (`MEM_DEALLOC_SIZE`) is a `long` too. -/
structure Page where
  size : Nat
  big : HEADER_SIZE < size
  small : 4 * size < 2 ^ 63

/-- Pages of 4096 bytes. -/
def page4096 : Page := ⟨4096, by decide, by decide⟩

/-- `MEM_ALLOC_SIZE`. -/
def Page.memAllocSize (pg : Page) : Nat := pg.size

/-- `MEM_DEALLOC_SIZE`. -/
def Page.memDeallocSize (pg : Page) : Nat := 4 * pg.size

/-- The block header. -/
structure MBlock where
  size : Nat
  free : Bool
  prev : Nat
  next : Nat
  deriving DecidableEq

/-- The values of `errno` this program sets or sees. -/
inductive Errno where
  | none
  | ENOMEM
  deriving DecidableEq

/-- The state of the allocator: its one global, the memory, the program break and `errno`. -/
structure Heap where
  firstBlock : Nat
  mem : Nat → MBlock
  brk : Nat
  errno : Errno

namespace Heap

/-- Change the header at `p`. -/
def modify (s : Heap) (p : Nat) (f : MBlock → MBlock) : Heap :=
  { s with mem := Function.update s.mem p (f (s.mem p)) }

/-- `p->size = v`. -/
def setSize (s : Heap) (p v : Nat) : Heap := s.modify p fun b => { b with size := v }

/-- `p->free = v`. -/
def setFree (s : Heap) (p : Nat) (v : Bool) : Heap := s.modify p fun b => { b with free := v }

/-- `p->prev = v`. -/
def setPrev (s : Heap) (p v : Nat) : Heap := s.modify p fun b => { b with prev := v }

/-- `p->next = v`. -/
def setNext (s : Heap) (p v : Nat) : Heap := s.modify p fun b => { b with next := v }

end Heap

/-- `WRITABLE_AREA(p)`. -/
def writableArea (p : Nat) : Nat := addSz p HEADER_SIZE

/-- `HEADER_AREA(p)`. -/
def headerArea (p : Nat) : Nat := subSz p HEADER_SIZE

/-- The number of rounds after which a walk over the list cannot end any more. -/
def walkBound : Nat := 2 ^ 64

/-! ## The kernel -/

/-- Whether `sbrk(incr)` goes through: the kernel grants it and the new break is an address. -/
def sbrkGrants (s : Heap) (ok : Bool) (incr : Nat) : Bool :=
  ok && decide (0 ≤ (s.brk : Int) + toSigned incr) && decide ((s.brk : Int) + toSigned incr < 2 ^ 64)

/-- `sbrk(incr)`: returns the old break, or `PTR_ERR` with `errno` set. -/
def sbrk (s : Heap) (ok : Bool) (incr : Nat) : Heap × Nat :=
  if sbrkGrants s ok incr then
    ({ s with brk := ((s.brk : Int) + toSigned incr).toNat }, s.brk)
  else ({ s with errno := .ENOMEM }, PTR_ERR)

/-- `brk(addr)`. -/
def brkTo (s : Heap) (ok : Bool) (addr : Nat) : Heap :=
  if ok then { s with brk := addr } else { s with errno := .ENOMEM }

/-! ## The list operations -/

/-- The loop of `add_block`, on `prev_block`: it looks for the last block. -/
def addBlockBody (s : Heap) : Nat × Unit → Turn (Nat × Unit) Nat := fun (prevBlock, _) =>
  if (s.mem prevBlock).next ≠ NULL then .again ((s.mem prevBlock).next, ()) else .leave prevBlock

/-- `add_block`: put a new block at the end of the list. -/
def addBlock (s : Heap) (newBlock : Nat) : Option Heap :=
  if s.firstBlock = NULL then
    some ((({ s with firstBlock := newBlock }).setNext newBlock NULL).setPrev newBlock NULL)
  else
    (loopN (addBlockBody s) walkBound (s.firstBlock, ())).map fun prevBlock =>
      ((s.setNext prevBlock newBlock).setPrev newBlock prevBlock).setNext newBlock NULL

/-- The loop of `scan`, on `ret`, with what follows it. -/
def scanBody (s : Heap) (size : Nat) : Nat × Unit → Turn (Nat × Unit) (Nat × Bool) :=
  fun (ret, _) =>
    if (s.mem ret).free = true ∧ (s.mem ret).size ≥ size then .leave (ret, false)
    else if (s.mem ret).next ≠ NULL then .again ((s.mem ret).next, ())
    -- past the loop: `ret` is the last block and does not fit
    else if (s.mem ret).free = true then .leave (ret, true)
    else .leave (NULL, false)

/-- `scan`: the first free block of at least `size` bytes; failing that, the last block when it
    is free, with `choose_last_unfit_free_block` set; else `NULL`. -/
def scan (s : Heap) (size : Nat) : Option (Nat × Bool) :=
  if s.firstBlock = NULL then some (NULL, false)
  else loopN (scanBody s size) walkBound (s.firstBlock, ())

/-- `resize_block`: cut what `block` has beyond `size` off as a free block of its own, if that
    is more than a header.  The successor's `prev` is not updated. -/
def resizeBlock (s : Heap) (block size : Nat) : Heap :=
  if subSz (s.mem block).size size ≤ HEADER_SIZE then s
  else
    let newBlock := addSz block size
    let s := s.setSize newBlock (subSz (s.mem block).size size)
    let s := s.setFree newBlock true
    let s := s.setNext newBlock (s.mem block).next
    let s := s.setPrev newBlock block
    let s := s.setSize block size
    s.setNext block newBlock

/-- `allocate`: a fresh block of `size` bytes at the break, not yet on the list. -/
def allocate (s : Heap) (ok : Bool) (size : Nat) : Heap × Nat :=
  let (s, mem) := sbrk s ok size
  if mem = PTR_ERR then (s, NULL)
  else ((((s.setSize mem size).setFree mem true).setNext mem NULL).setPrev mem NULL, mem)

/-- The first half of `free_and_merge`: join `block` to a free predecessor. -/
def mergePrev (s : Heap) (block : Nat) : Heap × Nat :=
  if (s.mem block).prev ≠ NULL ∧ (s.mem (s.mem block).prev).free = true then
    let s := s.setSize (s.mem block).prev (addSz (s.mem (s.mem block).prev).size (s.mem block).size)
    let s := s.setNext (s.mem block).prev (s.mem block).next
    let s := if (s.mem block).next ≠ NULL then s.setPrev (s.mem block).next (s.mem block).prev else s
    (s, (s.mem block).prev)
  else (s, block)

/-- The second half: join a free successor to `block`.  The `prev` of the block after that one
    is not updated. -/
def mergeNext (s : Heap) (block : Nat) : Heap :=
  if (s.mem block).next ≠ NULL ∧ (s.mem (s.mem block).next).free = true then
    let s := s.setSize block (addSz (s.mem block).size (s.mem (s.mem block).next).size)
    s.setNext block (s.mem (s.mem block).next).next
  else s

/-- `free_and_merge`. -/
def freeAndMerge (s : Heap) (block : Nat) : Heap :=
  let (s, block) := mergePrev (s.setFree block true) block
  mergeNext s block

/-- What the loop of `release_resource_if_need` does with one block: `first_free_block` is the
    LAST free block met, `total_free` the size of the run of free blocks up to here. -/
def releaseAcc (s : Heap) (acc : Nat × Nat) (ptr : Nat) : Nat × Nat :=
  if (s.mem ptr).free = true then (ptr, addSz acc.2 (s.mem ptr).size) else (NULL, 0)

/-- The loop of `release_resource_if_need`, on `ptr`, `first_free_block` and `total_free`. -/
def releaseBody (s : Heap) : Nat × (Nat × Nat) → Turn (Nat × (Nat × Nat)) (Nat × Nat) :=
  fun (ptr, acc) =>
    if ptr ≠ NULL then .again ((s.mem ptr).next, releaseAcc s acc ptr) else .leave acc

/-- What that loop finds. -/
def trailingFree (s : Heap) : Option (Nat × Nat) :=
  loopN (releaseBody s) walkBound (s.firstBlock, NULL, 0)

/-- `release_resource_if_need`: give the end of the heap back when enough of it is free. -/
def releaseResourceIfNeed (pg : Page) (brkOk : Bool) (s : Heap) : Option Heap :=
  (trailingFree s).map fun (firstFreeBlock, totalFree) =>
    if totalFree < pg.memDeallocSize then s
    else
      let reset := firstFreeBlock
      let s :=
        if firstFreeBlock = s.firstBlock then { s with firstBlock := NULL }
        else s.setNext (s.mem firstFreeBlock).prev NULL
      brkTo s brkOk reset

/-! ## The two entry points -/

/-- `MAX(((n / PAGE_SIZE) + 1) * PAGE_SIZE, MEM_ALLOC_SIZE)`: what is asked of `sbrk` when `n`
    bytes are missing. -/
def allocateSize (pg : Page) (n : Nat) : Nat :=
  max (mulSz (addSz (n / pg.size) 1) pg.size) pg.memAllocSize

/-- `my_malloc`.  On the path that extends a free last block, the result of `allocate` is
    dropped and `mem`, which is not null there, is tested instead. -/
def myMalloc (pg : Page) (ok : Bool) (s : Heap) (size : Nat) : Option (Heap × Nat) :=
  if size = 0 then some (s, NULL)
  else
    let msize := addSz size HEADER_SIZE
    (scan s msize).bind fun (mem, chooseLastUnfitFreeBlock) =>
      if mem = NULL then
        let (s, mem) := allocate s ok (allocateSize pg msize)
        if mem = NULL then some ({ s with errno := .ENOMEM }, NULL)
        else
          (addBlock s mem).map fun s =>
            let s := resizeBlock s mem msize
            (s.setFree mem false, writableArea mem)
      else if chooseLastUnfitFreeBlock = true then
        let allocSize := allocateSize pg (subSz msize (s.mem mem).size)
        let (s, _) := allocate s ok allocSize
        if mem = NULL then some ({ s with errno := .ENOMEM }, NULL)
        else
          let s := s.setSize mem (addSz (s.mem mem).size allocSize)
          let s := resizeBlock s mem msize
          some (s.setFree mem false, writableArea mem)
      else
        let s := resizeBlock s mem msize
        some (s.setFree mem false, writableArea mem)

/-- `my_free`. -/
def myFree (pg : Page) (brkOk : Bool) (s : Heap) (mem : Nat) : Option Heap :=
  if mem = NULL then some s
  else
    let block := headerArea mem
    releaseResourceIfNeed pg brkOk (freeAndMerge s block)

end LinuxInterface.Malloc
