/-
  The heap as a run of blocks: the abstract view of `Ch07.Malloc`'s memory.

  The allocator is for dividing the region between the heap's start and the break into blocks,
  laid edge to edge, some of them handed out.  `Blk` is one such block (address, size, free
  flag) and a heap is looked at through the list of its blocks in address order:

  * `Seg s p bs q`      — the list through `next` from `p` to `q` is `bs`, headers included;
  * `Listed s bs`       — `bs` is the whole list; `Laid s bs` — and its blocks do not overlap;
  * `Tiled R s start bs` — `bs` is the whole list, and it runs from `start` to the break, edge
    to edge (`R := Eq`) or with room between blocks (`R := ≤`: what is left when the kernel
    refuses to take memory back);
  * `Tidy R s start bs` — besides, blocks are larger than a header and free blocks are never
    neighbours (`Sep`);
  * `Linked s Q bs`     — the blocks satisfying `Q` have the right `prev`.

  Nothing in `Tiled` and `Tidy` speaks about `prev`: the code does not keep all of these links
  right, and which of them it does keep right is the subject of `Ch07.MallocRuns`.
-/
import LinuxInterface.Ch07.Malloc
import LinuxInterface.Base.Tiling
import Mathlib.Data.List.Chain
import Mathlib.Data.List.Nodup

namespace LinuxInterface.Malloc

open LinuxInterface

/-! ## Reading a heap after a store -/

namespace Heap

/-- The successor of the block at `p`. -/
def next (s : Heap) (p : Nat) : Nat := (s.mem p).next

/-- The predecessor of the block at `p`. -/
def prev (s : Heap) (p : Nat) : Nat := (s.mem p).prev

theorem modify_mem_self (s : Heap) (p : Nat) (f : MBlock → MBlock) :
    (s.modify p f).mem p = f (s.mem p) := by
  simp [modify]

theorem modify_mem_ne (s : Heap) {p q : Nat} (f : MBlock → MBlock) (h : q ≠ p) :
    (s.modify p f).mem q = s.mem q := by
  simp [modify, h]

@[simp] theorem modify_globals (s : Heap) (p : Nat) (f : MBlock → MBlock) :
    (s.modify p f).firstBlock = s.firstBlock ∧ (s.modify p f).brk = s.brk ∧
      (s.modify p f).errno = s.errno := ⟨rfl, rfl, rfl⟩

/-- Where a store to one field shows: in that field, at that address. -/
@[simp] theorem setSize_mem (s : Heap) (p q v : Nat) : (s.setSize p v).mem q =
    { s.mem q with size := if q = p then v else (s.mem q).size } := by
  by_cases h : q = p
  · subst h; simp [setSize, modify_mem_self]
  · simp [setSize, modify_mem_ne s _ h, h]

@[simp] theorem setFree_mem (s : Heap) (p q : Nat) (v : Bool) : (s.setFree p v).mem q =
    { s.mem q with free := if q = p then v else (s.mem q).free } := by
  by_cases h : q = p
  · subst h; simp [setFree, modify_mem_self]
  · simp [setFree, modify_mem_ne s _ h, h]

@[simp] theorem setPrev_mem (s : Heap) (p q v : Nat) : (s.setPrev p v).mem q =
    { s.mem q with prev := if q = p then v else (s.mem q).prev } := by
  by_cases h : q = p
  · subst h; simp [setPrev, modify_mem_self]
  · simp [setPrev, modify_mem_ne s _ h, h]

@[simp] theorem setNext_mem (s : Heap) (p q v : Nat) : (s.setNext p v).mem q =
    { s.mem q with next := if q = p then v else (s.mem q).next } := by
  by_cases h : q = p
  · subst h; simp [setNext, modify_mem_self]
  · simp [setNext, modify_mem_ne s _ h, h]

@[simp] theorem setSize_globals (s : Heap) (p v : Nat) :
    (s.setSize p v).firstBlock = s.firstBlock ∧ (s.setSize p v).brk = s.brk ∧
      (s.setSize p v).errno = s.errno := ⟨rfl, rfl, rfl⟩

@[simp] theorem setFree_globals (s : Heap) (p : Nat) (v : Bool) :
    (s.setFree p v).firstBlock = s.firstBlock ∧ (s.setFree p v).brk = s.brk ∧
      (s.setFree p v).errno = s.errno := ⟨rfl, rfl, rfl⟩

@[simp] theorem setPrev_globals (s : Heap) (p v : Nat) :
    (s.setPrev p v).firstBlock = s.firstBlock ∧ (s.setPrev p v).brk = s.brk ∧
      (s.setPrev p v).errno = s.errno := ⟨rfl, rfl, rfl⟩

@[simp] theorem setNext_globals (s : Heap) (p v : Nat) :
    (s.setNext p v).firstBlock = s.firstBlock ∧ (s.setNext p v).brk = s.brk ∧
      (s.setNext p v).errno = s.errno := ⟨rfl, rfl, rfl⟩

end Heap

/-! ## Blocks and lists of blocks -/

/-- A block: where it is, how long it is (header included) and whether it is free. -/
structure Blk where
  addr : Nat
  size : Nat
  free : Bool
  deriving DecidableEq

/-- The header of `b` in memory says what `b` says. -/
def Holds (s : Heap) (b : Blk) : Prop :=
  (s.mem b.addr).size = b.size ∧ (s.mem b.addr).free = b.free

/-- The list from `p` to `q` through `next`, with its headers, is `bs`. -/
def Seg (s : Heap) (p : Nat) (bs : List Blk) (q : Nat) : Prop :=
  Lseg s.next p (bs.map Blk.addr) q ∧ ∀ b ∈ bs, Holds s b

@[simp] theorem seg_nil {s : Heap} {p q : Nat} : Seg s p [] q ↔ p = q := by
  simp [Seg]

theorem seg_cons {s : Heap} {p q : Nat} {b : Blk} {bs : List Blk} :
    Seg s p (b :: bs) q ↔ p = b.addr ∧ Holds s b ∧ Seg s (s.next b.addr) bs q := by
  simp only [Seg, List.map_cons, lseg_cons, List.forall_mem_cons]
  constructor
  · rintro ⟨⟨hp, hl⟩, hb, hbs⟩; exact ⟨hp, hb, hl, hbs⟩
  · rintro ⟨hp, hb, hl, hbs⟩; exact ⟨⟨hp, hl⟩, hb, hbs⟩

/-- Cut a list at one of its blocks. -/
theorem seg_mid {s : Heap} {p q : Nat} {b : Blk} {l r : List Blk} :
    Seg s p (l ++ b :: r) q ↔
      Seg s p l b.addr ∧ Holds s b ∧ Seg s (s.next b.addr) r q := by
  simp only [Seg, List.map_append, List.map_cons, lseg_mid, List.forall_mem_append,
    List.forall_mem_cons]
  constructor
  · rintro ⟨⟨hl, hr⟩, hbl, hb, hbr⟩; exact ⟨⟨hl, hbl⟩, hb, hr, hbr⟩
  · rintro ⟨⟨hl, hbl⟩, hb, hr, hbr⟩; exact ⟨⟨hl, hr⟩, hbl, hb, hbr⟩

/-- A store that touches no header of the list keeps the list, whatever it does to `prev`. -/
theorem Seg.congr {s s' : Heap} {p q : Nat} {bs : List Blk} (h : Seg s p bs q)
    (hag : ∀ b ∈ bs, (s'.mem b.addr).size = (s.mem b.addr).size ∧
      (s'.mem b.addr).free = (s.mem b.addr).free ∧ (s'.mem b.addr).next = (s.mem b.addr).next) :
    Seg s' p bs q := by
  refine ⟨h.1.congr ?_, fun b hb => ?_⟩
  · intro a ha
    obtain ⟨b, hb, rfl⟩ := List.mem_map.mp ha
    exact (hag b hb).2.2
  · obtain ⟨hs, hf, _⟩ := hag b hb
    exact ⟨hs.trans (h.2 b hb).1, hf.trans (h.2 b hb).2⟩

/-! ## Listed and laid-out heaps -/

/-- The list of the heap is `bs`: it ends, and no block of it is at `NULL`. -/
structure Listed (s : Heap) (bs : List Blk) : Prop where
  seg : Seg s s.firstBlock bs NULL
  ne_null : ∀ b ∈ bs, b.addr ≠ NULL

/-- Besides, the blocks lie in the address space, in whatever order, and do not overlap. -/
structure Laid (s : Heap) (bs : List Blk) : Prop extends Listed s bs where
  apart : bs.Pairwise fun b c => b.addr + b.size ≤ c.addr ∨ c.addr + c.size ≤ b.addr
  top : ∀ b ∈ bs, b.addr + b.size ≤ 2 ^ 64

namespace Listed

variable {s : Heap} {l r bs : List Blk} {b c : Blk}

/-- The whole list, as the addresses a walk meets. -/
theorem chain (h : Listed s bs) : Chain s.next NULL s.firstBlock (bs.map Blk.addr) := by
  refine ⟨h.seg.1, fun hmem => ?_⟩
  obtain ⟨b, hb, hba⟩ := List.mem_map.mp hmem
  exact h.ne_null b hb hba

theorem onList_iff (h : Listed s bs) {a : Nat} :
    OnList s.next NULL s.firstBlock a ↔ ∃ b ∈ bs, b.addr = a := by
  rw [← List.mem_map]
  exact ⟨h.chain.mem_of_onList, h.chain.onList_of_mem⟩

/-- The successor of a block that is not the last one is the next block. -/
theorem next_eq (h : Listed s (l ++ b :: c :: r)) : s.next b.addr = c.addr :=
  (seg_cons.mp (seg_mid.mp h.seg).2.2).1

theorem next_last (h : Listed s (l ++ [b])) : s.next b.addr = NULL :=
  seg_nil.mp (seg_mid.mp h.seg).2.2

/-- No other block is at the address of `b`. -/
theorem addr_ne (h : Listed s (l ++ b :: r)) (hc : c ∈ l ++ r) : c.addr ≠ b.addr := by
  have hnodup := h.chain.nodup
  rw [List.map_append, List.map_cons] at hnodup
  have hnot := (List.nodup_middle.mp hnodup).notMem
  intro heq
  rw [← heq, ← List.map_append] at hnot
  exact hnot (List.mem_map_of_mem hc)

/-- The successor of a block is none of those before it. -/
theorem next_ne_left (h : Listed s (l ++ b :: r)) (hc : c ∈ l) : c.addr ≠ s.next b.addr := by
  cases r with
  | nil =>
    rw [h.next_last]
    exact h.ne_null c (List.mem_append_left _ hc)
  | cons d r =>
    rw [h.next_eq]
    have h' : Listed s ((l ++ [b]) ++ d :: r) := by simpa using h
    exact h'.addr_ne (by simp [hc])

end Listed

/-! ## Tiled and tidy heaps -/

/-- The list of the heap is `bs`, and it runs from `start` to `hi`. -/
structure TiledTo (R : Nat → Nat → Prop) (hi : Nat) (s : Heap) (start : Nat) (bs : List Blk) :
    Prop where
  gap : GapRel R
  seg : Seg s s.firstBlock bs NULL
  tiles : Tiles R Blk.addr Blk.size start bs hi
  pos : ∀ b ∈ bs, 0 < b.size
  start_pos : 0 < start
  hi_lt : hi < 2 ^ 64

/-- The list of the heap is `bs`, and it runs from `start` to the break. -/
abbrev Tiled (R : Nat → Nat → Prop) (s : Heap) (start : Nat) (bs : List Blk) : Prop :=
  TiledTo R s.brk s start bs

/-- Free blocks are never neighbours. -/
def Sep (bs : List Blk) : Prop := bs.IsChain fun a b => ¬ (a.free = true ∧ b.free = true)

/-- A tiled heap whose blocks all have room beyond their header and whose free space is fully
    merged. -/
structure Tidy (R : Nat → Nat → Prop) (s : Heap) (start : Nat) (bs : List Blk) : Prop
    extends Tiled R s start bs where
  big : ∀ b ∈ bs, HEADER_SIZE < b.size
  sep : Sep bs

/-- The blocks of `bs` that satisfy `Q` have the block before them as `prev`, the first of them
    `pr`. -/
def LinkedFrom (s : Heap) (Q : Blk → Prop) (pr : Nat) (bs : List Blk) : Prop :=
  BackLinks Blk.addr s.prev Q pr bs

/-- The blocks of `bs` that satisfy `Q` have the block before them as `prev`, the first of them
    `NULL`. -/
abbrev Linked (s : Heap) (Q : Blk → Prop) (bs : List Blk) : Prop := LinkedFrom s Q NULL bs

/-- The address of the last block of `l`, `NULL` when there is none. -/
def lastAddr (l : List Blk) : Nat := (l.map Blk.addr).getLastD NULL

@[simp] theorem lastAddr_nil : lastAddr [] = NULL := rfl

@[simp] theorem lastAddr_concat (l : List Blk) (b : Blk) : lastAddr (l ++ [b]) = b.addr := by
  simp [lastAddr]

theorem linked_mid {s : Heap} {Q : Blk → Prop} {l r : List Blk} {b : Blk} :
    Linked s Q (l ++ b :: r) ↔ Linked s Q l ∧ (Q b → s.prev b.addr = lastAddr l) ∧
      LinkedFrom s Q b.addr r := by
  unfold Linked LinkedFrom lastAddr
  rw [backLinks_append, backLinks_cons]

theorem linked_concat {s : Heap} {Q : Blk → Prop} {l : List Blk} {b : Blk} :
    Linked s Q (l ++ [b]) ↔ Linked s Q l ∧ (Q b → s.prev b.addr = lastAddr l) := by
  rw [linked_mid]
  constructor
  · rintro ⟨hl, hb, -⟩; exact ⟨hl, hb⟩
  · rintro ⟨hl, hb⟩; exact ⟨hl, hb, backLinks_nil⟩

namespace TiledTo

variable {R : Nat → Nat → Prop} {s : Heap} {start hi : Nat} {l r bs : List Blk} {b c : Blk}

/-- A block lies between the start and the end of the tiling. -/
theorem bounds (h : TiledTo R hi s start bs) (hb : b ∈ bs) :
    start ≤ b.addr ∧ b.addr + b.size ≤ hi := h.tiles.bounds h.gap hb

theorem addr_ne_null (h : TiledTo R hi s start bs) (hb : b ∈ bs) : b.addr ≠ 0 := by
  have := h.start_pos
  have := (h.bounds hb).1
  omega

theorem addr_lt_hi (h : TiledTo R hi s start bs) (hb : b ∈ bs) : b.addr < hi := by
  have := h.pos b hb
  have := (h.bounds hb).2
  omega

/-- What lies left of a block ends where it begins. -/
theorem left_end (h : TiledTo R hi s start (l ++ b :: r)) (hc : c ∈ l) : c.addr + c.size ≤ b.addr :=
  ((tiles_mid.mp h.tiles).1.bounds h.gap hc).2

/-- What lies right of a block begins after it ends. -/
theorem right_start (h : TiledTo R hi s start (l ++ b :: r)) (hc : c ∈ r) : b.addr + b.size ≤ c.addr :=
  ((tiles_mid.mp h.tiles).2.bounds h.gap hc).1

theorem left_lt (h : TiledTo R hi s start (l ++ b :: r)) (hc : c ∈ l) : c.addr < b.addr := by
  have := h.left_end hc
  have := h.pos c (by simp [hc])
  omega

theorem right_gt (h : TiledTo R hi s start (l ++ b :: r)) (hc : c ∈ r) : b.addr < c.addr := by
  have := h.right_start hc
  have := h.pos b (by simp)
  omega

theorem laid (h : TiledTo R hi s start bs) : Laid s bs where
  seg := h.seg
  ne_null := fun _ hb => h.addr_ne_null hb
  apart := (h.tiles.pairwise h.gap).imp fun hle => Or.inl hle
  top := fun b hb => by
    have hend := (h.bounds hb).2
    have hlt := h.hi_lt
    omega

theorem chain (h : TiledTo R hi s start bs) : Chain s.next NULL s.firstBlock (bs.map Blk.addr) :=
  h.laid.chain

/-- The list is short enough for every walk over it to end. -/
theorem length_lt (h : TiledTo R hi s start bs) : bs.length < walkBound := by
  have h1 := h.tiles.length_le h.gap h.pos
  have h2 := h.hi_lt
  have h3 := h.start_pos
  unfold walkBound
  omega

theorem next_eq (h : TiledTo R hi s start (l ++ b :: c :: r)) : s.next b.addr = c.addr :=
  h.laid.next_eq

theorem next_last (h : TiledTo R hi s start (l ++ [b])) : s.next b.addr = NULL :=
  h.laid.next_last

/-- Two blocks at one address are one block. -/
theorem addr_inj (h : TiledTo R hi s start bs) (hb : b ∈ bs) (hc : c ∈ bs) (hbc : b.addr = c.addr) :
    b = c := h.tiles.lo_inj h.gap h.pos hb hc hbc

/-- The heap is empty exactly when there is no first block. -/
theorem firstBlock_eq_null_iff (h : TiledTo R hi s start bs) : s.firstBlock = NULL ↔ bs = [] := by
  constructor
  · intro hnull
    cases bs with
    | nil => rfl
    | cons b bs =>
      have hb : s.firstBlock = b.addr := (seg_cons.mp h.seg).1
      exact absurd (hb.symm.trans hnull) (h.addr_ne_null List.mem_cons_self)
  · rintro rfl
    exact seg_nil.mp h.seg

theorem firstBlock_cons (h : TiledTo R hi s start (b :: bs)) : s.firstBlock = b.addr :=
  (seg_cons.mp h.seg).1

end TiledTo

end LinuxInterface.Malloc
