/-
  What runs of `my_malloc` and `my_free` guarantee, and where they break it.

  Each of the four sections states one thing the allocator is there for, proves it for all runs
  in which no `my_free` meets a stale `prev` (`Careful`), and ends with a run of a few calls,
  every one of them a legitimate use, in which it fails:

  1. **Disjointness** — live allocations do not overlap each other, nor free blocks.
  2. **The break** — the list is finite and lies below the break.
  3. **No loss** — when everything has been given back, the heap is one free block or empty.
  4. **Answers** — `my_malloc` returns `NULL` or room for the request, for every `size_t`.
-/
import LinuxInterface.Ch07.MallocRuns
import Mathlib.Data.Set.Lattice
import Mathlib.Order.CompletePartialOrder
import Mathlib.Order.Interval.Set.Basic

namespace LinuxInterface.Malloc

open LinuxInterface

variable {R : Nat → Nat → Prop} {pg : Page} {start : Nat} {w w₀ : World} {s : Heap}
  {bs : List Blk} {b c : Blk} {size : Nat} {ok : Bool}

/-! ## Disjointness -/

/-- The bytes `[block, block + block->size)`. -/
def bytes (s : Heap) (a : Nat) : Set Nat := Set.Ico a (a + (s.mem a).size)

/-- No two live allocations share a byte, nor do a live allocation and a free block. -/
def LiveDisjoint (w : World) : Prop :=
  w.live.Pairwise (fun p q =>
      Disjoint (bytes w.heap (headerArea p)) (bytes w.heap (headerArea q))) ∧
    ∀ p ∈ w.live, ∀ a, OnList w.heap.next NULL w.heap.firstBlock a → (w.heap.mem a).free = true →
      Disjoint (bytes w.heap (headerArea p)) (bytes w.heap a)

theorem bytes_of_mem (h : Tidy R s start bs) (hb : b ∈ bs) :
    bytes s b.addr = Set.Ico b.addr (b.addr + b.size) := by
  unfold bytes
  rw [(h.seg.2 b hb).1]

theorem bytes_disjoint (h : Tidy R s start bs) (hb : b ∈ bs) (hc : c ∈ bs)
    (hle : b.addr + b.size ≤ c.addr) : Disjoint (bytes s b.addr) (bytes s c.addr) := by
  rw [bytes_of_mem h hb, bytes_of_mem h hc, Set.disjoint_left]
  intro x hx hx'
  have h1 := hx.2
  have h2 := hx'.1
  omega

theorem Accounts.liveDisjoint (h : Accounts R pg start w bs) : LiveDisjoint w := by
  constructor
  · -- in the order of the list, each block in use ends before the next begins
    refine (h.live.pairwise_iff fun hd => hd.symm).mpr ?_
    rw [List.pairwise_map]
    refine ((h.tiles.pairwise h.gap).filter _).imp_of_mem fun {b c} hb hc hle => ?_
    have hb' := (mem_busy.mp hb).1
    have hc' := (mem_busy.mp hc).1
    rw [headerArea_payload h.toTidy hb', headerArea_payload h.toTidy hc']
    exact bytes_disjoint h.toTidy hb' hc' hle
  · intro p hp a hon hfree
    obtain ⟨l, b, r, hcut, hbusy, rfl⟩ := h.block_of_live hp
    have hb : b ∈ bs := by rw [hcut]; simp
    obtain ⟨c, hc, rfl⟩ := List.mem_map.mp (h.chain.mem_of_onList hon)
    rw [headerArea_payload h.toTidy hb]
    have hne : b ≠ c := by
      rintro rfl
      rw [(h.seg.2 b hc).2, hbusy] at hfree
      nomatch hfree
    rcases h.tiles.disjoint h.gap hb hc hne with hle | hle
    · exact bytes_disjoint h.toTidy hb hc hle
    · exact (bytes_disjoint h.toTidy hc hb hle).symm

/-- **Disjointness** in every run that meets no stale `prev`. -/
theorem careful_disjoint (h0 : Initial start w₀) (h : Reach (step pg) (Careful pg) w₀ w) :
    LiveDisjoint w := by
  obtain ⟨bs, hacc⟩ := careful_accounts h0 h
  exact hacc.liveDisjoint

/-- Three calls of this kind: two blocks, the first of which is given back. -/
def threeCalls : List Call := [.malloc 100 true, .malloc 200 true, .free 4128 true]

theorem careful_disjoint_threeCalls : ∃ w, w.live = [4260] ∧ LiveDisjoint w := by
  have hrun : (runList (step page4096) (fun w c => Legitimate page4096 w c ∧ FreesFirst w c)
      world4096 threeCalls).map World.live = some [4260] := by decide +kernel
  obtain ⟨w, hw, hlive⟩ := careful_of_observed hrun
  exact ⟨w, hlive, careful_disjoint world4096_initial hw⟩

/-- Two blocks, at 4096 and 12288.  The first is freed and cut in two halves that are handed out
    again, and the second keeps the first half as its `prev`.  When the first half and then the
    second block are freed, the latter is merged into the former right across the half in
    between, which is in use, and `my_malloc(8000)` hands that out once more. -/
def overlapCalls : List Call :=
  [.malloc 8128 true, .malloc 4032 true, .free 4128 true, .malloc 4032 true, .malloc 4064 true,
    .free 4128 true, .free 12320 true, .malloc 8000 true]

/-- **Two live allocations overlap** after these calls. -/
theorem legitimate_overlap :
    ∃ w, Reach (step page4096) (Legitimate page4096) world4096 w ∧ ¬ LiveDisjoint w := by
  have hrun : (runList (step page4096) (Legitimate page4096) world4096 overlapCalls).map
      (fun w => (w.live, (w.heap.mem 4096).size, (w.heap.mem 8160).size)) =
        some ([4128, 8192], 8032, 4128) := by decide +kernel
  obtain ⟨w, hw, hobs⟩ := Reach.of_observed hrun
  obtain ⟨hlive, hobs⟩ := Prod.mk.inj hobs
  obtain ⟨h1, h2⟩ := Prod.mk.inj hobs
  refine ⟨w, hw, fun hd => ?_⟩
  have hpair := hd.1
  rw [hlive] at hpair
  have hdisj := (List.pairwise_cons.mp hpair).1 8192 (by simp)
  -- the first byte of the one lies inside the other
  have hin : 8160 ∈ bytes w.heap (headerArea 4128) := by
    refine ⟨by decide, ?_⟩
    rw [show headerArea 4128 = 4096 from rfl, h1]
    decide
  have hin' : 8160 ∈ bytes w.heap (headerArea 8192) := by
    refine ⟨by decide, ?_⟩
    rw [show headerArea 8192 = 8160 from rfl, h2]
    decide
  exact Set.disjoint_left.mp hdisj hin hin'

/-! ## The break -/

/-- The list is finite, ends in `NULL`, and lies below the break. -/
def ListBelowBrk (s : Heap) : Prop :=
  ∃ as, Chain s.next NULL s.firstBlock as ∧ ∀ a ∈ as, a + (s.mem a).size ≤ s.brk

/-- **The list lies below the break** in every run that meets no stale `prev`. -/
theorem careful_below_brk (h0 : Initial start w₀) (h : Reach (step pg) (Careful pg) w₀ w) :
    ListBelowBrk w.heap := by
  obtain ⟨bs, hacc⟩ := careful_accounts h0 h
  refine ⟨bs.map Blk.addr, hacc.chain, fun a ha => ?_⟩
  obtain ⟨b, hb, rfl⟩ := List.mem_map.mp ha
  rw [(hacc.seg.2 b hb).1]
  exact (hacc.bounds hb).2

theorem careful_below_brk_threeCalls : ∃ w : World, w.heap.brk = 8192 ∧ ListBelowBrk w.heap := by
  have hrun : (runList (step page4096) (fun w c => Legitimate page4096 w c ∧ FreesFirst w c)
      world4096 threeCalls).map (fun w => w.heap.brk) = some 8192 := by decide +kernel
  obtain ⟨w, hw, hbrk⟩ := careful_of_observed hrun
  exact ⟨w, hbrk, careful_below_brk world4096_initial hw⟩

/-- Three blocks.  Freeing the second and then the first leaves the third with the second, which
    is gone, as `prev`; freeing the third is more than `MEM_DEALLOC_SIZE` at the end of the heap,
    and what is given back is unlinked from the wrong block. -/
def danglingCalls : List Call :=
  [.malloc 100 true, .malloc 100 true, .malloc 20000 true, .free 4260 true, .free 4128 true,
    .free 4392 true]

/-- **The list runs into memory that was given back** after these calls: its third block begins
    at the break. -/
theorem legitimate_dangling : ∃ w : World, Reach (step page4096) (Legitimate page4096) world4096 w ∧
    ¬ ListBelowBrk w.heap := by
  have hrun : (runList (step page4096) (Legitimate page4096) world4096 danglingCalls).map
      (fun w => (w.heap.firstBlock, w.heap.next 4096, w.heap.next 4360, (w.heap.mem 24392).size,
        w.heap.brk)) = some (4096, 4360, 24392, 184, 24392) := by decide +kernel
  obtain ⟨w, hw, hobs⟩ := Reach.of_observed hrun
  obtain ⟨hfirst, hobs⟩ := Prod.mk.inj hobs
  obtain ⟨hn1, hobs⟩ := Prod.mk.inj hobs
  obtain ⟨hn2, hobs⟩ := Prod.mk.inj hobs
  obtain ⟨hsize, hbrk⟩ := Prod.mk.inj hobs
  refine ⟨w, hw, ?_⟩
  rintro ⟨as, hchain, hbelow⟩
  have h1 : OnList w.heap.next NULL w.heap.firstBlock 4096 := by
    rw [hfirst]
    exact OnList.head (by decide)
  have h2 : OnList w.heap.next NULL w.heap.firstBlock 4360 := by
    rw [← hn1]
    exact OnList.next h1 (by rw [hn1]; decide)
  have h3 : OnList w.heap.next NULL w.heap.firstBlock 24392 := by
    rw [← hn2]
    exact OnList.next h2 (by rw [hn2]; decide)
  have hle := hbelow 24392 (hchain.mem_of_onList h3)
  rw [hsize, hbrk] at hle
  exact absurd hle (by decide)

/-! ## No loss -/

/-- When everything handed out has been given back, the heap is empty and the break back at its
    start, or it is one free block, not large enough to be released. -/
def NoLoss (pg : Page) (start : Nat) (w : World) : Prop :=
  w.live = [] → (w.heap.firstBlock = NULL ∧ w.heap.brk = start) ∨
    (w.heap.firstBlock = start ∧ (w.heap.mem start).free = true ∧ w.heap.next start = NULL ∧
      start + (w.heap.mem start).size = w.heap.brk ∧
      (w.heap.mem start).size < pg.memDeallocSize)

/-- Free blocks alone: with no two of them neighbours there is at most one. -/
theorem Sep.all_free (h : Sep bs) (hall : busy bs = []) :
    bs = [] ∨ ∃ t, bs = [t] ∧ t.free = true := by
  cases bs with
  | nil => exact Or.inl rfl
  | cons a r =>
    cases ha : a.free with
    | false =>
      rw [busy_cons_busy ha] at hall
      nomatch hall
    | true =>
      cases r with
      | nil => exact Or.inr ⟨a, rfl, ha⟩
      | cons d r =>
        have hd : d.free = false := by
          have hnot := (List.isChain_cons_cons.mp h).1
          simpa [ha] using hnot
        rw [busy_cons_free ha, busy_cons_busy hd] at hall
        nomatch hall

/-- **No loss** in every run that meets no stale `prev`. -/
theorem careful_no_loss (h0 : Initial start w₀) (h : Reach (step pg) (Careful pg) w₀ w) :
    NoLoss pg start w := by
  obtain ⟨bs, hacc⟩ := careful_accounts h0 h
  intro hlive
  have hbusy : busy bs = [] := by
    have hperm := hacc.live
    rw [hlive] at hperm
    exact List.map_eq_nil_iff.mp hperm.nil_eq.symm
  rcases hacc.sep.all_free hbusy with rfl | ⟨t, rfl, ht⟩
  · exact Or.inl ⟨seg_nil.mp hacc.seg, (show start = w.heap.brk from hacc.tiles).symm⟩
  · obtain ⟨hstart, hend⟩ : start = t.addr ∧ t.addr + t.size = w.heap.brk := hacc.tiles
    obtain ⟨hsize, hfree⟩ := hacc.seg.2 t (by simp)
    refine Or.inr ?_
    rw [hstart, hsize, hfree]
    exact ⟨hacc.firstBlock_cons, ht, TiledTo.next_last (l := []) hacc.toTiledTo, hend,
      hacc.small hlive [] t rfl ht⟩

/-- Everything of the first page given back. -/
theorem careful_no_loss_oneCall : ∃ w : World, w.live = [] ∧ w.heap.firstBlock ≠ NULL ∧
    NoLoss page4096 4096 w := by
  have hrun : (runList (step page4096) (fun w c => Legitimate page4096 w c ∧ FreesFirst w c)
      world4096 [.malloc 100 true, .free 4128 true]).map (fun w => (w.live, w.heap.firstBlock)) =
        some ([], 4096) := by decide +kernel
  obtain ⟨w, hw, hobs⟩ := careful_of_observed hrun
  obtain ⟨hlive, hfirst⟩ := Prod.mk.inj hobs
  exact ⟨w, hlive, by rw [hfirst]; decide, careful_no_loss world4096_initial hw⟩

/-- Two blocks; the first is freed and the beginning of it handed out again, and the second keeps
    that as its `prev`, not the free rest in between.  So when the second is freed it is not
    merged with that rest, and it stays apart for good. -/
def lossCalls : List Call :=
  [.malloc 1000 true, .malloc 1000 true, .free 4128 true, .malloc 100 true, .free 5160 true,
    .free 4128 true]

/-- **Two free neighbours are left** when everything has been given back after these calls. -/
theorem legitimate_loss : ∃ w, Reach (step page4096) (Legitimate page4096) world4096 w ∧
    ¬ NoLoss page4096 4096 w := by
  have hrun : (runList (step page4096) (Legitimate page4096) world4096 lossCalls).map
      (fun w => (w.live, w.heap.firstBlock, w.heap.next 4096)) = some ([], 4096, 5128) := by
    decide +kernel
  obtain ⟨w, hw, hobs⟩ := Reach.of_observed hrun
  obtain ⟨hlive, hobs⟩ := Prod.mk.inj hobs
  obtain ⟨hfirst, hnext⟩ := Prod.mk.inj hobs
  refine ⟨w, hw, fun hno => ?_⟩
  rcases hno hlive with ⟨hnull, -⟩ | ⟨-, -, hlast, -⟩
  · exact absurd (hfirst.symm.trans hnull) (by decide)
  · exact absurd (hnext.symm.trans hlast) (by decide)

/-! ## Answers -/

/-- What `my_malloc(size)` owes its caller: `NULL`, or a pointer with `size` bytes behind it that
    belong to a block of the list and lie below the break; and the break not lowered. -/
def Answers (s : Heap) (size : Nat) (res : Heap × Nat) : Prop :=
  s.brk ≤ res.1.brk ∧ (res.2 = NULL ∨ ∃ a, OnList res.1.next NULL res.1.firstBlock a ∧
    a + HEADER_SIZE = res.2 ∧ res.2 + size ≤ a + (res.1.mem a).size ∧
    a + (res.1.mem a).size ≤ res.1.brk)

/-- **Answers**, with a kernel that refuses as it likes: in every run whose calls meet no stale
    `prev` and ask for nothing that wraps or whose refusal goes unnoticed, each `my_malloc` of
    that kind returns as it should. -/
theorem careful_answers (h0 : Initial start w₀) (h : Reach (step pg) (CarefulAnyKernel pg) w₀ w)
    (hgo : CarefulAnyKernel pg w (.malloc size ok)) :
    ∃ res, myMalloc pg ok w.heap size = some res ∧ Answers w.heap size res := by
  obtain ⟨bs, hacc⟩ := anyKernel_accounts h0 h
  obtain ⟨s', p, bs', hcall, hbrk, hacc', hp⟩ := hacc.malloc hgo.2.1
  refine ⟨(s', p), hcall, hbrk, ?_⟩
  rcases hp with hnull | ⟨b, hb, rfl, hge⟩
  · exact Or.inl hnull
  · have hmem : (s'.mem b.addr).size = b.size := (hacc'.seg.2 b hb).1
    refine Or.inr ⟨b.addr, hacc'.chain.onList_of_mem (List.mem_map_of_mem hb), rfl, ?_, ?_⟩
    · show b.addr + HEADER_SIZE + size ≤ b.addr + (s'.mem b.addr).size
      omega
    · show b.addr + (s'.mem b.addr).size ≤ s'.brk
      rw [hmem]
      exact (hacc'.bounds hb).2

theorem careful_answers_threeCalls : ∃ (w : World) (res : Heap × Nat), w.live = [4260] ∧
    myMalloc page4096 true w.heap 50 = some res ∧ Answers w.heap 50 res := by
  have hrun : (runList (step page4096) (fun w c => Legitimate page4096 w c ∧ FreesFirst w c)
      world4096 threeCalls).map
        (fun w => (w.live, decide (Legitimate page4096 w (.malloc 50 true)))) =
        some ([4260], true) := by decide +kernel
  obtain ⟨w, hw, hobs⟩ := careful_of_observed hrun
  obtain ⟨hlive, hnext⟩ := Prod.mk.inj hobs
  have hgo : CarefulAnyKernel page4096 w (.malloc 50 true) :=
    Careful.anyKernel ⟨of_decide_eq_true hnext, trivial⟩
  obtain ⟨res, hres, hans⟩ := careful_answers world4096_initial
    (hw.mono fun _ _ hc => hc.anyKernel) hgo
  exact ⟨w, res, hlive, hres, hans⟩

/-- A block that fills its two pages, so that the next request wants a fresh one. -/
def fullCalls : List Call := [.malloc 8140 true]

/-- **`my_malloc(2^64 - 8192)` lowers the break** into the block in use, for the page-rounded
    request is a negative number for `sbrk`, and then writes a header beyond it and, where that
    does not fault, returns a pointer beyond it as well. -/
theorem huge_request_lowers_brk : ∃ w res, Reach (step page4096) ValidFree world4096 w ∧
    myMalloc page4096 true w.heap (2 ^ 64 - 8192) = some res ∧
    ¬ Answers w.heap (2 ^ 64 - 8192) res := by
  have hrun : ((runList (step page4096) ValidFree world4096 fullCalls).bind fun w =>
      (myMalloc page4096 true w.heap (2 ^ 64 - 8192)).map fun res =>
        (w.heap.brk, res.1.brk, res.2)) = some (12288, 8192, 12320) := by decide +kernel
  obtain ⟨w, hw, hobs⟩ := Option.bind_eq_some_iff.mp hrun
  obtain ⟨res, hres, hobs⟩ := Option.map_eq_some_iff.mp hobs
  obtain ⟨hbrk, hobs⟩ := Prod.mk.inj hobs
  obtain ⟨hbrk', -⟩ := Prod.mk.inj hobs
  refine ⟨w, res, Reach.of_runList Reach.init hw, hres, fun hans => ?_⟩
  have hle := hans.1
  rw [hbrk, hbrk'] at hle
  exact absurd hle (by decide)

end LinuxInterface.Malloc
