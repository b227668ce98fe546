/-
  One call of `my_malloc` or `my_free` on a heap in good order.

  1. **The request** — `shortfall` is the number of bytes `my_malloc` finds missing (none when a
     free block fits) and `rounded` what it then asks of `sbrk`; `Granted` says that nothing
     wraps and that the kernel says yes.

  2. **The block used** — `Chosen` lists the three ways to come by it: the first free block that
     fits, the free last block with the new memory added to it, a fresh block behind the list.
     After that the three paths do the same thing (`Tidy.serve`): cut off what is left over and
     mark the block.

  3. **The two calls** — `Tidy.myMalloc` and `Tidy.myFree` are the whole specification of a call,
     used for single calls in `Ch07.MallocCalls` and for runs in `Ch07.MallocRuns`.
-/
import LinuxInterface.Ch07.FreeSpec

namespace LinuxInterface.Malloc

open LinuxInterface

variable {R : Nat → Nat → Prop} {s : Heap} {start : Nat} {l r bs : List Blk} {b t : Blk}
  {m : Nat} {pg : Page} {ok : Bool}

/-! ## The request -/

/-- `((n / PAGE_SIZE) + 1) * PAGE_SIZE`, unwrapped. -/
def rounded (pg : Page) (n : Nat) : Nat := (n / pg.size + 1) * pg.size

theorem page_pos (pg : Page) : 0 < pg.size := by
  have := pg.big
  omega

/-- Rounding adds something, and at most a page. -/
theorem rounded_bounds (pg : Page) (n : Nat) : n < rounded pg n ∧ rounded pg n ≤ n + pg.size := by
  have hdiv := Nat.div_add_mod n pg.size
  have hmod := Nat.mod_lt n (page_pos pg)
  have heq : rounded pg n = pg.size * (n / pg.size) + pg.size := by
    unfold rounded
    rw [Nat.add_mul, Nat.one_mul, Nat.mul_comm]
  omega

theorem page_le_rounded (pg : Page) (n : Nat) : pg.size ≤ rounded pg n :=
  Nat.le_mul_of_pos_left _ (Nat.succ_pos _)

theorem allocateSize_eq {n : Nat} (h : rounded pg n < 2 ^ 64) :
    allocateSize pg n = rounded pg n := by
  have hle : n / pg.size + 1 ≤ rounded pg n := Nat.le_mul_of_pos_right _ (page_pos pg)
  unfold allocateSize
  rw [addSz_eq (by omega), mulSz_eq h]
  exact Nat.max_eq_left (page_le_rounded pg n)

/-- How many bytes `my_malloc` is short of when it looks for a block of `m` bytes: nothing when
    a block fits, else what a free last block lacks, else all of it. -/
def shortfall (s : Heap) (m : Nat) : Option Nat :=
  (scan s m).bind fun (mem, chooseLastUnfitFreeBlock) =>
    if mem = NULL then some m
    else if chooseLastUnfitFreeBlock = true then some (subSz m (s.mem mem).size)
    else none

/-- `my_malloc(size)` goes through: no `size_t` computation wraps, and `sbrk`, if it is called,
    succeeds. -/
def Granted (pg : Page) (ok : Bool) (s : Heap) (size : Nat) : Prop :=
  size + HEADER_SIZE < 2 ^ 64 ∧ ∀ k ∈ shortfall s (size + HEADER_SIZE),
    s.brk + rounded pg k < 2 ^ 64 ∧ sbrkGrants s ok (allocateSize pg k) = true

instance (pg : Page) (ok : Bool) (s : Heap) (size : Nat) : Decidable (Granted pg ok s size) :=
  inferInstanceAs (Decidable (_ ∧ _))

/-- A granted request is not read as a negative number. -/
theorem rounded_lt_of_grants {k : Nat} (hbrk : s.brk + rounded pg k < 2 ^ 64)
    (hg : sbrkGrants s ok (allocateSize pg k) = true) : rounded pg k < 2 ^ 63 := by
  rcases Nat.lt_or_ge (rounded pg k) (2 ^ 63) with hlt | hge
  · exact hlt
  · rw [allocateSize_eq (by omega)] at hg
    unfold sbrkGrants at hg
    rw [toSigned_neg hge] at hg
    simp only [Bool.and_eq_true, decide_eq_true_eq] at hg
    omega

/-- `allocate` on a granted request. -/
theorem allocate_rounded {k : Nat} (hbrk : s.brk + rounded pg k < 2 ^ 64)
    (hg : sbrkGrants s ok (allocateSize pg k) = true) :
    allocate s ok (allocateSize pg k) = (freshBlock s (rounded pg k), s.brk) := by
  have hlt := rounded_lt_of_grants hbrk hg
  have hpos := (rounded_bounds pg k).1
  rw [allocateSize_eq (by omega)] at hg ⊢
  exact allocate_granted (by omega) hlt hg

/-! ## Serving a request from a block -/

/-- `resize_block(mem, msize)` and `mem->free = FALSE`. -/
def serve (s : Heap) (a m : Nat) : Heap := (resizeBlock s a m).setFree a false

/-- The block that is handed out, and the rest of it that stays free. -/
theorem carve_eq (b : Blk) (m : Nat) : carve b m = [served b m] ∨
    carve b m = [served b m, ⟨b.addr + m, b.size - m, true⟩] ∧ HEADER_SIZE < b.size - m := by
  unfold carve served
  by_cases hkeep : b.size - m ≤ HEADER_SIZE
  · rw [if_pos hkeep, if_pos hkeep]
    exact Or.inl rfl
  · rw [if_neg hkeep, if_neg hkeep]
    exact Or.inr ⟨rfl, Nat.lt_of_not_le hkeep⟩

theorem served_spec (hm : m ≤ b.size) : (served b m).addr = b.addr ∧
    (served b m).free = false ∧ m ≤ (served b m).size ∧
    (served b m).size ≤ m + HEADER_SIZE := by
  unfold served
  by_cases hkeep : b.size - m ≤ HEADER_SIZE
  · rw [if_pos hkeep]
    refine ⟨rfl, rfl, hm, ?_⟩
    show b.size ≤ m + HEADER_SIZE
    omega
  · rw [if_neg hkeep]
    exact ⟨rfl, rfl, Nat.le_refl m, Nat.le_add_right _ _⟩

theorem served_mem_carve (b : Blk) (m : Nat) : served b m ∈ carve b m := by
  rcases carve_eq b m with h | ⟨h, -⟩ <;> simp [h]

theorem carve_head (b : Blk) (m : Nat) (r : List Blk) :
    (carve b m ++ r).head? = some (served b m) := by
  rcases carve_eq b m with h | ⟨h, -⟩ <;> simp [h]

theorem busy_carve (hm : m ≤ b.size) : busy (carve b m) = [served b m] := by
  have hfree := (served_spec hm).2.1
  rcases carve_eq b m with h | ⟨h, -⟩
  · rw [h, busy_cons_busy hfree]
    rfl
  · rw [h, busy_cons_busy hfree, busy_cons_free rfl]
    rfl

/-- What is cut off a free block has a neighbour that is not free on either side. -/
theorem sep_carve (hm : m ≤ b.size) (hb : b.free = true) (h : Sep (l ++ b :: r)) :
    Sep (l ++ (carve b m ++ r)) := by
  obtain ⟨hl, hbr, -⟩ := sep_append.mp h
  obtain ⟨hhead, hr⟩ := List.isChain_cons.mp hbr
  have hsf : (served b m).free = false := (served_spec hm).2.1
  refine sep_append.mpr ⟨hl, ?_, fun x _ a ha hfree => ?_⟩
  · rcases carve_eq b m with hc | ⟨hc, -⟩
    · rw [hc]
      exact List.isChain_cons.mpr ⟨fun d _ hfree => absurd hfree.1 (by simp [hsf]), hr⟩
    · rw [hc]
      refine List.isChain_cons_cons.mpr ⟨by simp [hsf], List.isChain_cons.mpr ⟨?_, hr⟩⟩
      -- the rest takes the place of `b` before the next block, and is free as `b` was
      intro d hd hfree
      exact hhead d hd ⟨hb, hfree.2⟩
  · rw [carve_head] at ha
    rw [← Option.some.inj ha, hsf] at hfree
    exact absurd hfree.2 (by decide)

/-- The cut-off rest points back to the block it was cut off, and no other `prev` changes; the
    one that is wrong after that, behind the rest, is not that of a free block. -/
theorem freeLinked_serve (h : TiledTo R s.brk s start (l ++ b :: r)) (hm0 : 0 < m) (hm : m ≤ b.size)
    (hb : b.free = true) (hsep : Sep (l ++ b :: r)) (hlink : FreeLinked s (l ++ b :: r)) :
    FreeLinked (serve s b.addr m) (l ++ (carve b m ++ r)) := by
  obtain ⟨hl, -, hr⟩ := linked_mid.mp hlink
  have hsf : (served b m).free = false := (served_spec hm).2.1
  have hsa : (served b m).addr = b.addr := (served_spec hm).1
  by_cases hkeep : b.size - m ≤ HEADER_SIZE
  · have hc : carve b m = [served b m] := by
      rw [carve, served, if_pos hkeep, if_pos hkeep]
    have hprev : ∀ a, (serve s b.addr m).prev a = s.prev a := by
      intro a
      rw [serve, resizeBlock_keep h.laid hm hkeep]
      simp [Heap.prev]
    rw [hc]
    refine linked_mid.mpr ⟨hl.congr fun d _ _ => hprev _, fun hf => ?_, ?_⟩
    · rw [hsf] at hf
      exact absurd hf (by decide)
    · rw [hsa]
      exact hr.congr fun d _ _ => hprev _
  · have hc : carve b m = [served b m, ⟨b.addr + m, b.size - m, true⟩] := by
      rw [carve, served, if_neg hkeep, if_neg hkeep]
    have hprev : ∀ a, (serve s b.addr m).prev a = if a = b.addr + m then b.addr else s.prev a := by
      intro a
      rw [serve, resizeBlock_cut h.laid hm hkeep]
      simp [Heap.prev]
    have hne : ∀ d ∈ l ++ r, d.addr ≠ b.addr + m := by
      intro d hd
      rcases List.mem_append.mp hd with hd | hd
      · have := h.left_lt hd; omega
      · have := h.right_start hd; rw [headerSize_eq] at hkeep; omega
    have hsame : ∀ d ∈ l ++ r, (serve s b.addr m).prev d.addr = s.prev d.addr := by
      intro d hd
      rw [hprev, if_neg (hne d hd)]
    rw [hc]
    refine linked_mid.mpr ⟨hl.congr fun d hd _ => hsame d (by simp [hd]), fun hf => ?_,
      fun _ => ?_, ?_⟩
    · rw [hsf] at hf
      exact absurd hf (by decide)
    · rw [hsa, hprev, if_pos rfl]
    · -- behind the rest: `r` was linked to `b`, and its first block is not free
      refine BackLinks.restart (hr.congr fun d hd _ => hsame d (by simp [hd])) ?_
      intro d hd hdfree
      exact (List.isChain_cons.mp (sep_append.mp hsep).2.1).1 d hd ⟨hb, hdfree⟩

/-- Serving a request from a free block that is large enough keeps the heap tidy. -/
theorem Tidy.serve (h : Tidy R s start (l ++ b :: r)) (hlink : FreeLinked s (l ++ b :: r))
    (hb : b.free = true) (hm0 : HEADER_SIZE < m) (hm : m ≤ b.size) :
    Tidy R (serve s b.addr m) start (l ++ (carve b m ++ r)) ∧
      FreeLinked (Malloc.serve s b.addr m) (l ++ (carve b m ++ r)) ∧
      (Malloc.serve s b.addr m).brk = s.brk := by
  have hbrk : (Malloc.serve s b.addr m).brk = s.brk := by
    unfold Malloc.serve resizeBlock
    split <;> rfl
  have hpos : 0 < m := Nat.lt_of_le_of_lt (Nat.zero_le _) hm0
  refine ⟨⟨?_, ?_, sep_carve hm hb h.sep⟩, freeLinked_serve h.toTiledTo hpos hm hb h.sep hlink, hbrk⟩
  · rw [hbrk]
    exact h.toTiledTo.carve hpos hm
  · intro d hd
    rcases List.mem_append.mp hd with hd | hd
    · exact h.big d (by simp [hd])
    · rcases List.mem_append.mp hd with hd | hd
      · have hserved := (served_spec hm).2.2.1
        rcases carve_eq b m with hc | ⟨hc, hrest⟩
        · rw [hc] at hd
          rw [List.mem_singleton.mp hd]
          omega
        · rw [hc] at hd
          rcases List.mem_cons.mp hd with rfl | hd
          · omega
          · rw [List.mem_singleton.mp hd]
            exact hrest
      · exact h.big d (by simp [hd])

/-! ## `my_malloc`

  The path taken depends on the answer of `scan` only.  One equation a path, on any heap. -/

section Paths

variable {size : Nat} (hsize : 0 < size)

include hsize

theorem myMalloc_fit {a : Nat} (hscan : scan s (addSz size HEADER_SIZE) = some (a, false))
    (ha : a ≠ NULL) :
    myMalloc pg ok s size = some (serve s a (addSz size HEADER_SIZE), writableArea a) := by
  unfold myMalloc
  rw [if_neg (Nat.ne_of_gt hsize)]
  simp only [hscan, Option.bind_some, if_neg ha]
  rfl

/-- The heap in which the extended last block is cut to size: the result of `allocate` has been
    dropped and the block has been lengthened, whether or not there is new memory. -/
def extended (pg : Page) (ok : Bool) (s : Heap) (a m : Nat) : Heap :=
  let n := allocateSize pg (subSz m (s.mem a).size)
  let s := (allocate s ok n).1
  s.setSize a (addSz (s.mem a).size n)

theorem myMalloc_extend {a : Nat} (hscan : scan s (addSz size HEADER_SIZE) = some (a, true))
    (ha : a ≠ NULL) : myMalloc pg ok s size =
      some (serve (extended pg ok s a (addSz size HEADER_SIZE)) a (addSz size HEADER_SIZE),
        writableArea a) := by
  unfold myMalloc
  rw [if_neg (Nat.ne_of_gt hsize)]
  simp only [hscan, Option.bind_some, if_neg ha, if_pos]
  rfl

theorem myMalloc_fresh {c : Bool} {s1 : Heap} {a : Nat}
    (hscan : scan s (addSz size HEADER_SIZE) = some (NULL, c))
    (halloc : allocate s ok (allocateSize pg (addSz size HEADER_SIZE)) = (s1, a)) (ha : a ≠ NULL) :
    myMalloc pg ok s size = (addBlock s1 a).map fun s2 =>
      (serve s2 a (addSz size HEADER_SIZE), writableArea a) := by
  unfold myMalloc
  rw [if_neg (Nat.ne_of_gt hsize)]
  simp only [hscan, Option.bind_some, if_pos, halloc, if_neg ha]
  rfl

theorem myMalloc_refused {c : Bool} {s1 : Heap}
    (hscan : scan s (addSz size HEADER_SIZE) = some (NULL, c))
    (halloc : allocate s ok (allocateSize pg (addSz size HEADER_SIZE)) = (s1, NULL)) :
    myMalloc pg ok s size = some ({ s1 with errno := .ENOMEM }, NULL) := by
  unfold myMalloc
  rw [if_neg (Nat.ne_of_gt hsize)]
  simp only [hscan, Option.bind_some, if_pos, halloc]

end Paths

/-- The block `b` that a request of `m` bytes is served from, the blocks left and right of it at
    that moment, and the break, when the list of the heap is `bs`. -/
inductive Chosen (pg : Page) (s : Heap) (m : Nat) (bs : List Blk) :
    List Blk → Blk → List Blk → Nat → Prop where
  /-- The first free block that fits. -/
  | fit {l r : List Blk} {b : Blk} : bs = l ++ b :: r → Fits m b → (∀ c ∈ l, ¬ Fits m c) →
      Chosen pg s m bs l b r s.brk
  /-- The last block, free but too small, with the missing bytes (rounded up) added to it. -/
  | extend {l : List Blk} {t : Blk} : bs = l ++ [t] → t.free = true → (∀ c ∈ bs, ¬ Fits m c) →
      Chosen pg s m bs l { t with size := t.size + rounded pg (m - t.size) } []
        (s.brk + rounded pg (m - t.size))
  /-- A fresh block behind the list. -/
  | fresh : (∀ t ∈ bs.getLast?, t.free = false) → (∀ c ∈ bs, ¬ Fits m c) →
      Chosen pg s m bs bs ⟨s.brk, rounded pg m, true⟩ [] (s.brk + rounded pg m)

/-- What holds on each of the three ways. -/
theorem Chosen.spec {hi : Nat} (h : Chosen pg s m bs l b r hi) : b.free = true ∧ m ≤ b.size ∧
    busy (l ++ r) = busy bs ∧ s.brk ≤ hi := by
  cases h with
  | fit hbs hfit _ =>
    refine ⟨hfit.1, hfit.2, ?_, Nat.le_refl _⟩
    rw [hbs, busy_append, busy_append, busy_cons_free hfit.1]
  | @extend l t hbs ht _ =>
    refine ⟨ht, ?_, ?_, Nat.le_add_right _ _⟩
    · have := (rounded_bounds pg (m - t.size)).1
      show m ≤ t.size + rounded pg (m - t.size)
      omega
    · rw [hbs, busy_append, busy_append, busy_cons_free ht]
  | fresh _ _ =>
    refine ⟨rfl, Nat.le_of_lt (rounded_bounds pg m).1, ?_, Nat.le_add_right _ _⟩
    rw [List.append_nil]

theorem shortfall_extend (h : TiledTo R s.brk s start (l ++ [t])) (ht : t.free = true)
    (hno : ∀ c ∈ l ++ [t], ¬ Fits m c) (hm : m < 2 ^ 64) :
    shortfall s m = some (m - t.size) ∧ t.size < m := by
  have hlt : t.size < m := by
    have := hno t (by simp)
    unfold Fits at this
    rw [ht] at this
    simpa using this
  have hne : t.addr ≠ NULL := h.addr_ne_null (by simp)
  have hholds := (h.seg.2 t (by simp)).1
  refine ⟨?_, hlt⟩
  unfold shortfall
  rw [scan_extend h ht hno]
  show (if t.addr = NULL then _ else if true = true then some (subSz m (s.mem t.addr).size)
    else _) = _
  rw [if_neg hne, if_pos rfl, hholds, subSz_eq (Nat.le_of_lt hlt) hm]

theorem shortfall_fresh (h : TiledTo R s.brk s start bs) (hlast : ∀ t ∈ bs.getLast?, t.free = false)
    (hno : ∀ c ∈ bs, ¬ Fits m c) : scan s m = some (NULL, false) ∧ shortfall s m = some m := by
  have hscan : scan s m = some (NULL, false) := by
    refine scan_none h (fun l t hl => hlast t ?_) hno
    rw [hl]
    simp
  refine ⟨hscan, ?_⟩
  unfold shortfall
  rw [hscan]
  rfl

/-- The three ways exhaust the heaps. -/
theorem path_cases (m : Nat) (bs : List Blk) :
    (∃ l b r, bs = l ++ b :: r ∧ Fits m b ∧ ∀ c ∈ l, ¬ Fits m c) ∨
      (∃ l t, bs = l ++ [t] ∧ t.free = true ∧ ∀ c ∈ bs, ¬ Fits m c) ∨
      ((∀ t ∈ bs.getLast?, t.free = false) ∧ ∀ c ∈ bs, ¬ Fits m c) := by
  rcases firstFit_or_none m bs with hfit | hno
  · exact Or.inl hfit
  · right
    rcases List.eq_nil_or_concat bs with rfl | ⟨l, t, rfl⟩
    · exact Or.inr ⟨fun t ht => (nomatch ht), hno⟩
    · rw [List.concat_eq_append] at hno ⊢
      cases ht : t.free with
      | true => exact Or.inl ⟨l, t, rfl, ht, hno⟩
      | false =>
        refine Or.inr ⟨fun u hu => ?_, hno⟩
        have : t = u := by simpa using hu
        rw [← this]
        exact ht

/-- The heap with the extended last block, just before that is cut to size. -/
theorem Tidy.extended (h : Tidy R s start (l ++ [t])) (hlink : FreeLinked s (l ++ [t]))
    (ht : t.free = true) (hm : m < 2 ^ 64) (hlt : t.size < m)
    (hbrk : s.brk + rounded pg (m - t.size) < 2 ^ 64)
    (hg : sbrkGrants s ok (allocateSize pg (m - t.size)) = true) :
    Tidy R (extended pg ok s t.addr m) start
        (l ++ [{ t with size := t.size + rounded pg (m - t.size) }]) ∧
      FreeLinked (Malloc.extended pg ok s t.addr m)
        (l ++ [{ t with size := t.size + rounded pg (m - t.size) }]) ∧
      (Malloc.extended pg ok s t.addr m).brk = s.brk + rounded pg (m - t.size) := by
  have hsz : (s.mem t.addr).size = t.size := (h.seg.2 t (by simp)).1
  have hext : Malloc.extended pg ok s t.addr m =
      (freshBlock s (rounded pg (m - t.size))).setSize t.addr
        (addSz ((freshBlock s (rounded pg (m - t.size))).mem t.addr).size
          (rounded pg (m - t.size))) := by
    simp only [Malloc.extended, hsz, subSz_eq (Nat.le_of_lt hlt) hm, allocate_rounded hbrk hg]
    rw [allocateSize_eq (by omega)]
  have hprev : ∀ d ∈ l ++ [t], (Malloc.extended pg ok s t.addr m).prev d.addr = s.prev d.addr := by
    intro d hd
    have hdb : d.addr ≠ s.brk := Nat.ne_of_lt (h.addr_lt_hi hd)
    rw [hext]
    simp [Heap.prev, freshBlock, hdb]
  refine ⟨⟨?_, fun d hd => ?_, ?_⟩, ?_, by rw [hext]; rfl⟩
  · rw [hext]
    exact Tiled.grow h.toTiledTo hbrk
  · rcases List.mem_append.mp hd with hd | hd
    · exact h.big d (by simp [hd])
    · rw [List.mem_singleton.mp hd]
      have := h.big t (by simp)
      show HEADER_SIZE < t.size + _
      omega
  · obtain ⟨hsl, -, hst⟩ := sep_append.mp h.sep
    refine sep_append.mpr ⟨hsl, List.isChain_singleton _, fun a ha d hd => ?_⟩
    have hd' : { t with size := t.size + rounded pg (m - t.size) } = d := by
      simpa using hd
    rw [← hd']
    exact hst a ha t rfl
  · obtain ⟨hll, hlt⟩ := linked_concat.mp hlink
    refine linked_concat.mpr ⟨hll.congr fun d hd _ => hprev d (by simp [hd]), fun _ => ?_⟩
    exact (hprev t (by simp)).trans (hlt ht)

/-- The heap with a fresh block behind the list, just before that is cut to size. -/
theorem Tidy.appended (h : Tidy R s start bs) (hlink : FreeLinked s bs)
    (hlast : ∀ t ∈ bs.getLast?, t.free = false) (hm : HEADER_SIZE < m)
    (hbrk : s.brk + rounded pg m < 2 ^ 64) :
    ∃ s', addBlock (freshBlock s (rounded pg m)) s.brk = some s' ∧
      Tidy R s' start (bs ++ [⟨s.brk, rounded pg m, true⟩]) ∧
      FreeLinked s' (bs ++ [⟨s.brk, rounded pg m, true⟩]) ∧ s'.brk = s.brk + rounded pg m := by
  have hpos := (rounded_bounds pg m).1
  obtain ⟨s', hadd, hbrk', htiled, hprevn, hprev⟩ :=
    Tiled.append h.toTiledTo (x := rounded pg m) (by omega) hbrk
  refine ⟨s', hadd, ⟨htiled, fun d hd => ?_, ?_⟩, ?_, hbrk'⟩
  · rcases List.mem_append.mp hd with hd | hd
    · exact h.big d hd
    · rw [List.mem_singleton.mp hd]
      exact Nat.lt_trans hm hpos
  · refine sep_append.mpr ⟨h.sep, List.isChain_singleton _, fun a ha d _ hfree => ?_⟩
    rw [hlast a ha] at hfree
    exact absurd hfree.1 (by decide)
  · exact linked_concat.mpr ⟨hlink.congr fun d hd _ => hprev d hd, fun _ => hprevn⟩

/-- **`my_malloc`** on a tidy heap, when the request goes through. -/
theorem Tidy.myMalloc {size : Nat} (h : Tidy R s start bs) (hlink : FreeLinked s bs)
    (hsize : 0 < size) (hgo : Granted pg ok s size) :
    ∃ s' l b r hi, myMalloc pg ok s size = some (s', writableArea b.addr) ∧
      Chosen pg s (size + HEADER_SIZE) bs l b r hi ∧ s'.brk = hi ∧
      Tidy R s' start (l ++ (carve b (size + HEADER_SIZE) ++ r)) ∧
      FreeLinked s' (l ++ (carve b (size + HEADER_SIZE) ++ r)) := by
  obtain ⟨hwrap, hgrant⟩ := hgo
  have hadd : addSz size HEADER_SIZE = size + HEADER_SIZE := addSz_eq hwrap
  have hm0 : HEADER_SIZE < size + HEADER_SIZE := by omega
  rcases path_cases (size + HEADER_SIZE) bs with
    ⟨l, b, r, hbs, hfit, hl⟩ | ⟨l, t, hbs, ht, hno⟩ | ⟨hlast, hno⟩
  · -- a free block fits
    have hc : Chosen pg s (size + HEADER_SIZE) bs l b r s.brk := .fit hbs hfit hl
    subst hbs
    obtain ⟨htidy, hfl, hbrk⟩ := h.serve hlink hfit.1 hm0 hfit.2
    have hcall : Malloc.myMalloc pg ok s size = _ :=
      myMalloc_fit hsize (hadd ▸ scan_fit h.toTiledTo hfit hl) (h.addr_ne_null (by simp))
    rw [hadd] at hcall
    exact ⟨_, l, b, r, s.brk, hcall, hc, hbrk, htidy, hfl⟩
  · -- the free last block is extended
    have hc : Chosen pg s (size + HEADER_SIZE) bs l _ [] _ := .extend hbs ht hno
    subst hbs
    obtain ⟨hshort, hlt⟩ := shortfall_extend h.toTiledTo ht hno hwrap
    obtain ⟨hbrk, hg⟩ := hgrant _ hshort
    obtain ⟨htidy1, hlink1, hbrk1⟩ := h.extended hlink ht hwrap hlt hbrk hg
    obtain ⟨htidy, hfl, hbrk2⟩ := htidy1.serve hlink1 ht hm0 hc.spec.2.1
    have hcall : Malloc.myMalloc pg ok s size = _ :=
      myMalloc_extend hsize (hadd ▸ scan_extend h.toTiledTo ht hno) (h.addr_ne_null (by simp))
    rw [hadd] at hcall
    refine ⟨_, l, _, [], _, ?_, hc, hbrk2.trans hbrk1, htidy, hfl⟩
    exact hcall
  · -- a fresh block is put behind the list
    have hc : Chosen pg s (size + HEADER_SIZE) bs bs _ [] _ := .fresh hlast hno
    obtain ⟨hscan, hshort⟩ := shortfall_fresh h.toTiledTo hlast hno
    obtain ⟨hbrk, hg⟩ := hgrant _ hshort
    obtain ⟨s1, hadd1, htidy1, hlink1, hbrk1⟩ := h.appended hlink hlast hm0 hbrk
    obtain ⟨htidy, hfl, hbrk2⟩ := htidy1.serve hlink1 rfl hm0 hc.spec.2.1
    have hbne : s.brk ≠ NULL := by
      have h1 := h.start_pos
      have h2 := h.tiles.le h.gap
      rw [null_eq]
      omega
    have hcall : Malloc.myMalloc pg ok s size = _ :=
      myMalloc_fresh hsize (hadd ▸ hscan) (hadd ▸ allocate_rounded hbrk hg) hbne
    rw [hadd, hadd1] at hcall
    exact ⟨_, bs, ⟨s.brk, _, true⟩, [], _, hcall, hc, hbrk2.trans hbrk1, htidy, hfl⟩

/-! ## `my_free` -/

/-- The payload address of a block leads back to its header. -/
theorem writableArea_eq (h : Tidy R s start bs) (hb : b ∈ bs) :
    writableArea b.addr = b.addr + HEADER_SIZE ∧ headerArea (b.addr + HEADER_SIZE) = b.addr := by
  have h1 := (h.bounds hb).2
  have h2 := h.big b hb
  have h3 := h.hi_lt
  refine ⟨addSz_eq (by omega), ?_⟩
  unfold headerArea
  rw [subSz_eq (Nat.le_add_left _ _) (by omega), Nat.add_sub_cancel]

/-- **`my_free`** on a tidy heap, for a block whose `prev` is exact.  Between `free_and_merge`
    and `release_resource_if_need` the list is `freed l b r`; then either it stays, not ending in
    a large free block, or exactly its last block goes. -/
theorem Tidy.myFree (pg : Page) (brkOk : Bool) (h : Tidy R s start (l ++ b :: r))
    (hlink : FreeLinked s (l ++ b :: r)) (hprev : s.prev b.addr = lastAddr l)
    (hroom : brkOk = false → ∀ x y, x ≤ y → R x y) :
    ∃ s' bs', myFree pg brkOk s (b.addr + HEADER_SIZE) = some s' ∧ Tidy R s' start bs' ∧
      FreeLinked s' bs' ∧ busy bs' = busy (l ++ r) ∧
      (∀ l' t, bs' = l' ++ [t] → t.free = true → t.size < pg.memDeallocSize) ∧
      ((bs' = freed l b r ∧ s'.brk = s.brk) ∨
        ∃ t, freed l b r = bs' ++ [t] ∧ t.free = true ∧ pg.memDeallocSize ≤ t.size ∧
          s'.brk = if brkOk then t.addr else s.brk) := by
  obtain ⟨htidy, hfl, hbrk, hbusy⟩ := h.freeAndMerge hlink hprev
  have hmem : b.addr + HEADER_SIZE ≠ NULL := by simp
  have hcall : Malloc.myFree pg brkOk s (b.addr + HEADER_SIZE) =
      releaseResourceIfNeed pg brkOk (Malloc.freeAndMerge s b.addr) := by
    unfold Malloc.myFree
    rw [if_neg hmem, (writableArea_eq h (by simp)).2]
  rw [hcall]
  rcases htidy.release pg brkOk hfl hroom with ⟨hsmall, hrel⟩ | ⟨l', t, s', hbs, ht, hge, hrel,
    htidy', hfl', hbrk'⟩
  · exact ⟨_, _, hrel, htidy, hfl, hbusy, hsmall, Or.inl ⟨rfl, hbrk⟩⟩
  · refine ⟨s', l', hrel, htidy', hfl', ?_, ?_, Or.inr ⟨t, hbs, ht, hge, ?_⟩⟩
    · rw [← hbusy, hbs, busy_append, busy_cons_free ht]
      exact (List.append_nil _).symm
    · -- the block before the one that went is not free
      intro l₂ u hl₂ hu
      have hsep := htidy.sep
      rw [hbs, hl₂] at hsep
      exact absurd ⟨hu, ht⟩ ((sep_append.mp hsep).2.2 u (by simp) t rfl)
    · rw [hbrk', hbrk]

end LinuxInterface.Malloc
