/-
  Single calls of `my_malloc` and `my_free`.

  1. **Sound heaps** — `Sound` is the heap the author has in mind: the list tiles the memory up
     to the break edge to edge, no two neighbours are free, and every `prev` is exact.

  2. **One call on a sound heap** — `myMalloc_sound` and `myFree_sound` say what the call does to
     the list.  Neither promises exact `prev` links again, and they are indeed lost
     (`Ch07.MallocRuns` shows what comes of it).

  3. **There and back** — `my_free` of what `my_malloc` has just cut from a free block restores
     every header (`myFree_undoes_myMalloc`): the `prev` that was not set is not missed yet.

  4. **A refused `sbrk`** — `my_malloc` fails cleanly when a fresh block was wanted.  When the
     free last block was to be extended, it does not notice: `myMalloc_clean_iff`.
-/
import LinuxInterface.Ch07.MallocStep

namespace LinuxInterface.Malloc

open LinuxInterface

variable {s : Heap} {start : Nat} {bs : List Blk} {b : Blk} {pg : Page} {ok brkOk : Bool}
  {size : Nat}

/-! ## Sound heaps -/

/-- The list of the heap is `bs`; it tiles the memory from `start` to the break, free blocks are
    never neighbours, and every block has the block before it as `prev`. -/
structure Sound (s : Heap) (start : Nat) (bs : List Blk) : Prop extends Tidy Eq s start bs where
  linked : Linked s (fun _ => True) bs

theorem Sound.freeLinked (h : Sound s start bs) : FreeLinked s bs :=
  BackLinks.mono (fun _ _ => trivial) h.linked

/-- A heap of one page: a block of 132 bytes in use, the rest of the page free. -/
def onePage : Heap where
  firstBlock := 4096
  mem := fun a => if a = 4096 then ⟨132, false, NULL, 4228⟩ else ⟨3964, true, 4096, NULL⟩
  brk := 8192
  errno := .none

theorem onePage_sound : Sound onePage 4096 [⟨4096, 132, false⟩, ⟨4228, 3964, true⟩] where
  gap := GapRel.eq
  seg := by simp [seg_cons, Holds, Heap.next, onePage]
  tiles := by simp [onePage]
  pos := by decide
  start_pos := by decide
  hi_lt := by decide
  big := by decide
  sep := by simp [Sep]
  linked := by simp [Linked, LinkedFrom, Heap.prev, onePage]

/-! ## `my_malloc` on a sound heap -/

/-- The lowest-addressed block that fits, on a list sorted by address. -/
theorem first_is_lowest {R : Nat → Nat → Prop} {l r : List Blk} {m : Nat} (h : Tidy R s start (l ++ b :: r))
    (hl : ∀ c ∈ l, ¬ Fits m c) : ∀ d ∈ l ++ b :: r, Fits m d → b.addr ≤ d.addr := by
  intro d hd hfit
  rcases List.mem_append.mp hd with hd | hd
  · exact absurd hfit (hl d hd)
  · rcases List.mem_cons.mp hd with rfl | hd
    · exact Nat.le_refl _
    · exact Nat.le_of_lt (h.right_gt hd)

/-- **One `my_malloc`.**  It returns the payload of a block in use that holds the request and at
    most a header more; blocks in use stay what they are; the list tiles the heap as before; the
    break moves exactly when nothing fits, and else the block used is the lowest one that fits. -/
theorem myMalloc_sound (h : Sound s start bs) (hsize : 0 < size) (hgo : Granted pg ok s size) :
    ∃ s' bs' b, myMalloc pg ok s size = some (s', writableArea b.addr) ∧
      (b ∈ bs' ∧ b.free = false ∧ size + HEADER_SIZE ≤ b.size ∧ b.size ≤ size + 2 * HEADER_SIZE) ∧
      (∀ c ∈ bs, c.free = false → c ∈ bs') ∧
      Tidy Eq s' start bs' ∧
      (s'.brk ≠ s.brk ↔ ∀ c ∈ bs, ¬ Fits (size + HEADER_SIZE) c) ∧
      (s'.brk = s.brk → ∃ c ∈ bs, c.addr = b.addr ∧ Fits (size + HEADER_SIZE) c ∧
        ∀ d ∈ bs, Fits (size + HEADER_SIZE) d → c.addr ≤ d.addr) := by
  obtain ⟨s', l, b, r, hi, hcall, hc, hbrk, htidy, -⟩ := h.toTidy.myMalloc h.freeLinked hsize hgo
  obtain ⟨-, hm, hbusy, -⟩ := hc.spec
  obtain ⟨haddr, hfree, hge, hle⟩ := served_spec hm
  refine ⟨s', _, served b (size + HEADER_SIZE), by rw [hcall, haddr],
    ⟨?_, hfree, hge, by omega⟩, ?_, htidy, ?_⟩
  · exact List.mem_append_right _ (List.mem_append_left _ (served_mem_carve b _))
  · -- a block in use is in use left or right of the block that was cut
    intro c hcm hcf
    have hmem : c ∈ busy (l ++ r) := by
      rw [hbusy]
      exact mem_busy.mpr ⟨hcm, hcf⟩
    rcases List.mem_append.mp (mem_busy.mp hmem).1 with hcl | hcr
    · simp [hcl]
    · simp [hcr]
  · rw [hbrk, haddr]
    cases hc with
    | fit hbs hfit hl =>
      have hmem : b ∈ bs := by rw [hbs]; simp
      refine ⟨⟨fun hne => absurd rfl hne, fun hno => absurd hfit (hno b hmem)⟩, fun _ => ?_⟩
      refine ⟨b, hmem, rfl, hfit, ?_⟩
      have hlow := first_is_lowest (hbs ▸ h.toTidy) hl
      rwa [← hbs] at hlow
    | @extend l t _ _ hno =>
      have hpos := (rounded_bounds pg (size + HEADER_SIZE - t.size)).1
      exact ⟨⟨fun _ => hno, fun _ => by omega⟩, fun heq => absurd heq (by omega)⟩
    | fresh _ hno =>
      have hpos := (rounded_bounds pg (size + HEADER_SIZE)).1
      exact ⟨⟨fun _ => hno, fun _ => by omega⟩, fun heq => absurd heq (by omega)⟩

/-- 200 bytes out of the free rest of the page. -/
theorem myMalloc_sound_onePage : ∃ s' bs' b,
    myMalloc page4096 true onePage 200 = some (s', writableArea b.addr) ∧ b ∈ bs' ∧
      b.free = false ∧ 232 ≤ b.size ∧ b.size ≤ 264 ∧ Tidy Eq s' 4096 bs' := by
  have hgo : Granted page4096 true onePage 200 := by decide +kernel
  obtain ⟨s', bs', b, hcall, ⟨hb, hf, hge, hle⟩, -, htidy, -⟩ :=
    myMalloc_sound onePage_sound (by decide) hgo
  exact ⟨s', bs', b, hcall, hb, hf, hge, hle, htidy⟩

/-! ## `my_free` on a sound heap -/

/-- **One `my_free`** of a block in use, the kernel letting go of what is given back.  The blocks
    in use after it are those before it without `b`; the list tiles the heap up to the new break;
    it does not end in a large free block; and the break moves only by the whole of one free
    block that `free_and_merge` had left at the end of the list. -/
theorem myFree_sound (pg : Page) (h : Sound s start bs) (hb : b ∈ bs) (hfree : b.free = false)
    (hbrk : brkOk = true) :
    ∃ s' bs', myFree pg brkOk s (writableArea b.addr) = some s' ∧
      (∀ c, c ∈ bs' ∧ c.free = false ↔ (c ∈ bs ∧ c.free = false) ∧ c.addr ≠ b.addr) ∧
      Tidy Eq s' start bs' ∧
      (∀ l t, bs' = l ++ [t] → t.free = true → t.size < pg.memDeallocSize) ∧
      (s'.brk ≠ s.brk → ∃ t, Tidy Eq (freeAndMerge s b.addr) start (bs' ++ [t]) ∧
        t.free = true ∧ s'.brk = t.addr ∧ t.addr + t.size = s.brk) := by
  obtain ⟨l, r, rfl⟩ := List.append_of_mem hb
  have hprev : s.prev b.addr = lastAddr l := (linked_mid.mp h.linked).2.1 trivial
  have hmerged := h.toTidy.freeAndMerge h.freeLinked hprev
  obtain ⟨s', bs', hcall, htidy, -, hbusy, hsmall, hbrk'⟩ := h.toTidy.myFree pg brkOk h.freeLinked
    hprev (fun hno => absurd (hbrk.symm.trans hno) (by decide))
  refine ⟨s', bs', ?_, fun c => ?_, htidy, hsmall, fun hne => ?_⟩
  · rw [(writableArea_eq h.toTidy hb).1]
    exact hcall
  · -- `b` is the one block that left `busy (l ++ b :: r)`, and no other has its address
    rw [← mem_busy, hbusy, mem_busy, List.mem_append, List.mem_append, List.mem_cons]
    constructor
    · rintro ⟨hc | hc, hcf⟩
      · exact ⟨⟨Or.inl hc, hcf⟩, Nat.ne_of_lt (h.left_lt hc)⟩
      · exact ⟨⟨Or.inr (Or.inr hc), hcf⟩, Nat.ne_of_gt (h.right_gt hc)⟩
    · rintro ⟨⟨hc | rfl | hc, hcf⟩, hne⟩
      · exact ⟨Or.inl hc, hcf⟩
      · exact absurd rfl hne
      · exact ⟨Or.inr hc, hcf⟩
  · rcases hbrk' with ⟨-, hsame⟩ | ⟨t, hbs, ht, -, heq⟩
    · exact absurd hsame hne
    · rw [if_pos hbrk] at heq
      have htidy1 : Tidy Eq (Malloc.freeAndMerge s b.addr) start (bs' ++ [t]) := hbs ▸ hmerged.1
      have hend : t.addr + t.size = (Malloc.freeAndMerge s b.addr).brk :=
        (tiles_mid.mp htidy1.tiles).2
      exact ⟨t, htidy1, ht, heq, hend.trans hmerged.2.2.1⟩

/-- The block in use of the one page goes, and nothing is left in use. -/
theorem myFree_sound_onePage : ∃ s' bs', myFree page4096 true onePage 4128 = some s' ∧
    (∀ c ∈ bs', c.free = true) ∧ Tidy Eq s' 4096 bs' := by
  obtain ⟨s', bs', hcall, hbusy, htidy, -⟩ :=
    myFree_sound page4096 onePage_sound List.mem_cons_self rfl rfl
  refine ⟨s', bs', hcall, fun c hc => ?_, htidy⟩
  by_contra hcf
  obtain ⟨⟨hmem, hf⟩, hne⟩ := (hbusy c).mp ⟨hc, by simpa using hcf⟩
  simp only [List.mem_cons, List.not_mem_nil, or_false] at hmem
  rcases hmem with rfl | rfl
  · exact hne rfl
  · exact absurd hf (by decide)

/-! ## `my_free` after `my_malloc` -/

/-- First block, break and the headers of `bs` are the same in both heaps. -/
def Restored (s s' : Heap) (bs : List Blk) : Prop :=
  s'.firstBlock = s.firstBlock ∧ s'.brk = s.brk ∧ ∀ b ∈ bs, s'.mem b.addr = s.mem b.addr

/-- Which makes the other heap sound, too. -/
theorem Restored.tiled {s' : Heap} (hres : Restored s s' bs) (h : Tiled Eq s start bs) :
    Tiled Eq s' start bs := by
  obtain ⟨hfirst, hbrk, hmem⟩ := hres
  refine ⟨h.gap, ?_, by rw [hbrk]; exact h.tiles, h.pos, h.start_pos, by rw [hbrk]; exact h.hi_lt⟩
  rw [hfirst]
  exact h.seg.congr fun b hb => by rw [hmem b hb]; exact ⟨rfl, rfl, rfl⟩

/-- A free block of a sound heap has no free neighbour. -/
theorem Sound.busy_around {l r : List Blk} (h : Sound s start (l ++ b :: r)) (hb : b.free = true) :
    (∀ p ∈ l.getLast?, p.free = false) ∧ ∀ n ∈ r.head?, n.free = false := by
  obtain ⟨-, hsbr, hseam⟩ := sep_append.mp h.sep
  constructor
  · intro p hp
    simpa [hb] using hseam p hp b rfl
  · intro n hn
    simpa [hb] using (List.isChain_cons.mp hsbr).1 n hn

/-- A block that was served whole is marked and marked again. -/
theorem freeAndMerge_serve_whole {l r : List Blk} {m : Nat} (h : Sound s start (l ++ b :: r))
    (hb : b.free = true) (hm0 : 0 < m) (hm : m ≤ b.size) (hkeep : b.size - m ≤ HEADER_SIZE) :
    Restored s (freeAndMerge (serve s b.addr m) b.addr) (l ++ b :: r) := by
  obtain ⟨hleft, hright⟩ := h.busy_around hb
  have hprev : s.prev b.addr = lastAddr l := (linked_mid.mp h.linked).2.1 trivial
  have hserved := (h.toTiledTo.carve hm0 hm).laid.toListed
  rw [carve, if_pos hkeep] at hserved
  unfold freeAndMerge serve
  rw [resizeBlock_keep h.laid hm hkeep] at hserved ⊢
  have hmarked : Listed ((s.setFree b.addr false).setFree b.addr true) (l ++ _ :: r) :=
    hserved.setFree (b := { b with free := false }) true
  rw [mergePrev_skip hmarked (by simpa [Heap.prev] using hprev) hleft]
  show Restored s (mergeNext _ b.addr) _
  rw [mergeNext_skip hmarked hright]
  refine ⟨by simp, by simp, fun c _ => ?_⟩
  by_cases hc : c.addr = b.addr
  · rw [hc]
    simp [← (h.seg.2 b (by simp)).2.trans hb]
  · simp [hc]

/-- The rest of a block that was cut is its free right neighbour, and joins it again. -/
theorem freeAndMerge_serve_cut {l r : List Blk} {m : Nat} (h : Sound s start (l ++ b :: r))
    (hb : b.free = true) (hm0 : 0 < m) (hm : m ≤ b.size) (hcut : ¬ b.size - m ≤ HEADER_SIZE) :
    Restored s (freeAndMerge (serve s b.addr m) b.addr) (l ++ b :: r) := by
  have hprev : s.prev b.addr = lastAddr l := (linked_mid.mp h.linked).2.1 trivial
  have hstores := resizeBlock_cut h.laid hm hcut
  have hserved := (h.toTiledTo.carve hm0 hm).laid.toListed
  rw [carve, if_neg hcut] at hserved
  have hmarked : Listed (((resizeBlock s b.addr m).setFree b.addr false).setFree b.addr true)
      (l ++ _ :: ⟨b.addr + m, b.size - m, true⟩ :: r) :=
    Listed.setFree (b := ⟨b.addr, m, false⟩) hserved true
  have hlt := (h.bounds (b := b) (by simp)).2
  have hbrk := h.hi_lt
  have hsum : m + (b.size - m) < 2 ^ 64 := by omega
  have hprev' : (((resizeBlock s b.addr m).setFree b.addr false).setFree b.addr true).prev b.addr =
      lastAddr l := by
    rw [hstores]
    simpa [Heap.prev, Nat.ne_of_gt hm0] using hprev
  unfold freeAndMerge serve
  rw [mergePrev_skip hmarked hprev' (h.busy_around hb).1]
  show Restored s (mergeNext _ b.addr) _
  rw [mergeNext_eq hmarked hsum rfl, hstores]
  refine ⟨by simp, by simp, fun c hc => ?_⟩
  -- no header of the list stands where the rest had its own
  have hcm : c.addr ≠ b.addr + m := by
    rcases List.mem_append.mp hc with hc | hc
    · have := h.left_lt hc
      omega
    · rcases List.mem_cons.mp hc with rfl | hc
      · omega
      · have := h.right_start hc
        rw [headerSize_eq] at hcut
        omega
  by_cases hcb : c.addr = b.addr
  · obtain ⟨hsize, hfree⟩ := h.seg.2 b (by simp)
    have hwhole : m + (b.size - m) = (s.mem b.addr).size := by
      rw [hsize]
      omega
    rw [hcb]
    simp [Nat.ne_of_gt hm0, Heap.next, hwhole, ← hfree.trans hb]
  · simp [hcb, hcm]

/-- **`free_and_merge` undoes the serving** of a request from a free block.  The `prev` that
    `resize_block` has not set is the right one then. -/
theorem freeAndMerge_serve {l r : List Blk} {m : Nat} (h : Sound s start (l ++ b :: r))
    (hb : b.free = true) (hm0 : 0 < m) (hm : m ≤ b.size) :
    Restored s (freeAndMerge (serve s b.addr m) b.addr) (l ++ b :: r) := by
  by_cases hkeep : b.size - m ≤ HEADER_SIZE
  · exact freeAndMerge_serve_whole h hb hm0 hm hkeep
  · exact freeAndMerge_serve_cut h hb hm0 hm hkeep

/-- The run of free blocks at the end of a tidy heap is the last block, if that is free. -/
theorem total_trailing_lt {y : Nat} (hsep : Sep bs) (hy : 0 < y)
    (hend : ∀ l t, bs = l ++ [t] → t.free = true → t.size < y) : total (trailing bs) < y := by
  rcases last_free_or bs with ⟨l, t, rfl, ht⟩ | hbusy
  · rw [trailing_tidy hsep ht, total_singleton]
    exact hend l t rfl ht
  · rw [trailing_busy hbusy]
    exact hy

/-- **`my_free` undoes `my_malloc`** on a sound heap with a block that fits, when the heap does not
    end in a block that `my_free` would give back anyway.  Whatever the kernel would answer: it
    is not asked. -/
theorem myFree_undoes_myMalloc (h : Sound s start bs)
    (hend : ∀ l t, bs = l ++ [t] → t.free = true → t.size < pg.memDeallocSize)
    (hsize : 0 < size) (hwrap : size + HEADER_SIZE < 2 ^ 64)
    (hfit : ∃ c ∈ bs, Fits (size + HEADER_SIZE) c) :
    ∃ s₁ p s₂, myMalloc pg ok s size = some (s₁, p) ∧ p ≠ NULL ∧
      myFree pg brkOk s₁ p = some s₂ ∧ Restored s s₂ bs := by
  have hadd : addSz size HEADER_SIZE = size + HEADER_SIZE := addSz_eq hwrap
  rcases firstFit_or_none (size + HEADER_SIZE) bs with ⟨l, b, r, rfl, hb, hl⟩ | hno
  · have hcall : myMalloc pg ok s size = _ :=
      myMalloc_fit hsize (hadd ▸ scan_fit h.toTiledTo hb hl) (h.addr_ne_null (by simp))
    rw [hadd] at hcall
    obtain ⟨hp, hheader⟩ := writableArea_eq (b := b) h.toTidy (by simp)
    have hne : b.addr + HEADER_SIZE ≠ NULL := Nat.succ_ne_zero _
    have hres := freeAndMerge_serve h hb.1 (by omega) hb.2
    -- the heap is the old one again, and its end is too small to be given back
    have hsmall := total_trailing_lt h.sep pg.memDealloc_pos hend
    have hrun := trailingFree_run (hres.tiled h.toTiledTo)
    refine ⟨_, _, _, hcall, by rw [hp]; exact hne, ?_, hres⟩
    rw [hp]
    unfold myFree
    rw [if_neg hne, hheader]
    exact release_skip hrun hsmall
  · obtain ⟨c, hc, hfits⟩ := hfit
    exact absurd hfits (hno c hc)

/-- 200 bytes of the one page, taken and given back. -/
theorem myFree_undoes_myMalloc_onePage : ∃ s₁ p s₂,
    myMalloc page4096 true onePage 200 = some (s₁, p) ∧ p ≠ NULL ∧
      myFree page4096 true s₁ p = some s₂ ∧
      Restored onePage s₂ [⟨4096, 132, false⟩, ⟨4228, 3964, true⟩] := by
  refine myFree_undoes_myMalloc onePage_sound ?_ (by decide) (by decide)
    ⟨⟨4228, 3964, true⟩, by decide, by decide⟩
  intro l t hl _
  have ht : (⟨4228, 3964, true⟩ : Blk) = t := by
    have hlast := congrArg List.getLast? hl
    simpa using hlast
  rw [← ht]
  decide

/-! ## A refused `sbrk` -/

/-- A call that fails and leaves everything as it was: `NULL`, `ENOMEM`, and the list, its
    headers and the break unchanged. -/
def CleanFailure (s : Heap) (res : Option (Heap × Nat)) : Prop :=
  ∃ s', res = some (s', NULL) ∧ s'.errno = .ENOMEM ∧ s'.firstBlock = s.firstBlock ∧
    s'.brk = s.brk ∧ ∀ a, OnList s.next NULL s.firstBlock a → s'.mem a = s.mem a

/-- The last block of the list, if there is one, is in use. -/
def LastInUse (s : Heap) : Prop :=
  ∀ a, OnList s.next NULL s.firstBlock a → s.next a = NULL → (s.mem a).free = false

/-- One round of the loop of `scan`. -/
theorem scanBody_cases (s : Heap) (m ret : Nat) :
    ((s.mem ret).free = true ∧ scanBody s m (ret, ()) = .leave (ret, false)) ∨
      (s.next ret ≠ NULL ∧ scanBody s m (ret, ()) = .again (s.next ret, ())) ∨
      (s.next ret = NULL ∧ (s.mem ret).free = true ∧ scanBody s m (ret, ()) = .leave (ret, true)) ∨
      (s.next ret = NULL ∧ (s.mem ret).free = false ∧
        scanBody s m (ret, ()) = .leave (NULL, false)) := by
  by_cases hfit : (s.mem ret).free = true ∧ (s.mem ret).size ≥ m
  · exact Or.inl ⟨hfit.1, if_pos hfit⟩
  · right
    by_cases hnext : (s.mem ret).next ≠ NULL
    · exact Or.inl ⟨hnext, (if_neg hfit).trans (if_pos hnext)⟩
    · right
      have hlast : s.next ret = NULL := Decidable.not_not.mp hnext
      have hskip : scanBody s m (ret, ()) =
          if (s.mem ret).free = true then .leave (ret, true) else .leave (NULL, false) :=
        (if_neg hfit).trans (if_neg hnext)
      cases hfree : (s.mem ret).free with
      | true => exact Or.inl ⟨hlast, rfl, hskip.trans (if_pos hfree)⟩
      | false => exact Or.inr ⟨hlast, rfl, hskip.trans (if_neg (by simp [hfree]))⟩

/-- What `scan` has seen when it returns with no fit, on any heap: there is no list, or it met
    the last block, which it returns when that is free. -/
theorem scan_unfit {m a : Nat} {c : Bool} (hscan : scan s m = some (a, c))
    (hun : a = NULL ∨ c = true) : (s.firstBlock = NULL ∧ a = NULL) ∨
      ∃ t, OnList s.next NULL s.firstBlock t ∧ s.next t = NULL ∧
        (((s.mem t).free = true ∧ a = t ∧ c = true) ∨ ((s.mem t).free = false ∧ a = NULL)) := by
  unfold scan at hscan
  by_cases hfirst : s.firstBlock = NULL
  · rw [if_pos hfirst] at hscan
    cases hscan
    exact Or.inl ⟨hfirst, rfl⟩
  · rw [if_neg hfirst] at hscan
    right
    -- the loop stays on the list
    have hstep : ∀ x y : Nat × Unit, OnList s.next NULL s.firstBlock x.1 →
        scanBody s m x = .again y → OnList s.next NULL s.firstBlock y.1 := by
      intro x y hx hy
      rcases scanBody_cases s m x.1 with ⟨-, h⟩ | ⟨hne, h⟩ | ⟨-, -, h⟩ | ⟨-, -, h⟩
      · nomatch hy.symm.trans h
      · cases hy.symm.trans h
        exact OnList.next hx hne
      · nomatch hy.symm.trans h
      · nomatch hy.symm.trans h
    obtain ⟨x, hx, hleave⟩ := loopN_inv hstep (OnList.head hfirst) hscan
    refine ⟨x.1, hx, ?_⟩
    rcases scanBody_cases s m x.1 with ⟨-, h⟩ | ⟨-, h⟩ | ⟨hlast, hfree, h⟩ | ⟨hlast, hfree, h⟩
    · -- a block that fits is neither null nor marked
      cases hleave.symm.trans h
      rcases hun with h0 | h0
      · exact absurd h0 hx.ne_nil
      · nomatch h0
    · nomatch hleave.symm.trans h
    · cases hleave.symm.trans h
      exact ⟨hlast, Or.inl ⟨hfree, rfl, rfl⟩⟩
    · cases hleave.symm.trans h
      exact ⟨hlast, Or.inr ⟨hfree, rfl⟩⟩

/-- The two ways to be short of memory. -/
theorem shortfall_cases {m k : Nat} (h : shortfall s m = some k) :
    (∃ c, scan s m = some (NULL, c) ∧ k = m) ∨
      ∃ a, a ≠ NULL ∧ scan s m = some (a, true) ∧ k = subSz m (s.mem a).size := by
  unfold shortfall at h
  obtain ⟨⟨a, c⟩, hscan, hk⟩ := Option.bind_eq_some_iff.mp h
  dsimp only at hk
  by_cases ha : a = NULL
  · rw [if_pos ha] at hk
    exact Or.inl ⟨c, ha ▸ hscan, (Option.some.inj hk).symm⟩
  · rw [if_neg ha] at hk
    cases c with
    | false => nomatch hk
    | true => exact Or.inr ⟨a, ha, hscan, (Option.some.inj hk).symm⟩

/-- Where `scan` returned `NULL`, the last block is in use. -/
theorem lastInUse_of_scan {m : Nat} {c : Bool} (hscan : scan s m = some (NULL, c)) :
    LastInUse s := by
  intro a hon hlast
  rcases scan_unfit hscan (Or.inl rfl) with ⟨hnull, -⟩ | ⟨t, ht, htn, ⟨-, h0, -⟩ | ⟨hf, -⟩⟩
  · rw [hnull] at hon
    exact absurd hon not_onList_nil
  · exact absurd h0.symm ht.ne_nil
  · rw [hon.last_unique ht hlast htn]
    exact hf

/-- Where `scan` returned a block that is too small, that is the last one, and free. -/
theorem last_of_scan {m a : Nat} (hscan : scan s m = some (a, true)) (ha : a ≠ NULL) :
    OnList s.next NULL s.firstBlock a ∧ s.next a = NULL ∧ (s.mem a).free = true := by
  rcases scan_unfit hscan (Or.inr rfl) with ⟨-, h0⟩ | ⟨t, ht, htn, ⟨hf, rfl, -⟩ | ⟨-, h0⟩⟩
  · exact absurd h0 ha
  · exact ⟨ht, htn, hf⟩
  · exact absurd h0 ha

/-- `my_malloc(size)` wants a fresh block and the kernel has no memory for it. -/
def Refused (pg : Page) (ok : Bool) (s : Heap) (size : Nat) : Prop :=
  LastInUse s ∧ ∃ k, shortfall s (addSz size HEADER_SIZE) = some k ∧
    sbrkGrants s ok (allocateSize pg k) = false

/-- Then it fails and only `errno` changes. -/
theorem myMalloc_of_refused (hsize : 0 < size) (h : Refused pg ok s size) :
    myMalloc pg ok s size = some ({ s with errno := .ENOMEM }, NULL) := by
  obtain ⟨hlast, k, hshort, hrefuse⟩ := h
  rcases shortfall_cases hshort with ⟨c, hscan, rfl⟩ | ⟨a, ha, hscan, -⟩
  · have hcall : myMalloc pg ok s size = _ :=
      myMalloc_refused hsize hscan (allocate_refused hrefuse)
    exact hcall
  · obtain ⟨hon, hnext, hfree⟩ := last_of_scan hscan ha
    rw [hlast a hon hnext] at hfree
    nomatch hfree

/-- A block that a request was served from is in use, with or without new memory. -/
theorem serve_free (s : Heap) (a m : Nat) : ((serve s a m).mem a).free = false := by
  simp [serve]

/-- **A refused `sbrk`**, on every heap: a call of `my_malloc` that is short of `k` bytes, and for
    which the kernel has no more memory, fails cleanly if and only if the last block is in use,
    that is, if it wanted a fresh block. -/
theorem myMalloc_clean_iff {k : Nat} (hsize : 0 < size) (hwrap : size + HEADER_SIZE < 2 ^ 64)
    (hshort : shortfall s (size + HEADER_SIZE) = some k)
    (hrefuse : sbrkGrants s ok (allocateSize pg k) = false) :
    CleanFailure s (myMalloc pg ok s size) ↔ LastInUse s := by
  rw [← addSz_eq hwrap] at hshort
  constructor
  · rintro ⟨s', hres, -, -, -, hmem⟩
    rcases shortfall_cases hshort with ⟨c, hscan, -⟩ | ⟨a, ha, hscan, -⟩
    · exact lastInUse_of_scan hscan
    · -- the free last block `a` was to be extended; it is marked in use all the same
      obtain ⟨hon, -, hfree⟩ := last_of_scan hscan ha
      rw [myMalloc_extend hsize hscan ha] at hres
      have hs' := congrArg Prod.fst (Option.some.inj hres)
      have hbusy := serve_free (extended pg ok s a (addSz size HEADER_SIZE)) a
        (addSz size HEADER_SIZE)
      rw [show serve _ _ _ = s' from hs', hmem a hon, hfree] at hbusy
      nomatch hbusy
  · intro hlast
    exact ⟨_, myMalloc_of_refused hsize ⟨hlast, k, hshort, hrefuse⟩, rfl, rfl, rfl, fun _ _ => rfl⟩

/-- A heap of one page with two blocks, both in use. -/
def fullPage : Heap where
  firstBlock := 4096
  mem := fun a => if a = 4096 then ⟨132, false, NULL, 4228⟩ else ⟨3964, false, 4096, NULL⟩
  brk := 8192
  errno := .none

/-- A request for which there is no room, refused. -/
theorem myMalloc_clean_fullPage : CleanFailure fullPage (myMalloc page4096 false fullPage 100) := by
  have hscan : scan fullPage (100 + HEADER_SIZE) = some (NULL, false) := by decide +kernel
  have hshort : shortfall fullPage (100 + HEADER_SIZE) = some 132 := by decide +kernel
  have hrefuse : sbrkGrants fullPage false (allocateSize page4096 132) = false := by decide
  exact (myMalloc_clean_iff (by decide) (by decide) hshort hrefuse).mpr (lastInUse_of_scan hscan)

/-- The heap before the first call, with the break at `start`. -/
def blank (start : Nat) : Heap where
  firstBlock := NULL
  mem := fun _ => ⟨0, false, NULL, NULL⟩
  brk := start
  errno := .none

/-- **What goes wrong otherwise.**  `my_malloc(100)` leaves 3964 bytes free at the end of the
    first page; then `my_malloc(8000)`, with `sbrk` refusing, returns the pointer 4260 as if those
    bytes had become 8060, and marks them in use. -/
theorem myMalloc_extend_refused : ∃ s p, myMalloc page4096 true (blank 4096) 100 = some (s, p) ∧
    shortfall s (8000 + HEADER_SIZE) = some 4068 ∧
    sbrkGrants s false (allocateSize page4096 4068) = false ∧
    ¬ CleanFailure s (myMalloc page4096 false s 8000) := by
  have hfirst : (myMalloc page4096 true (blank 4096) 100).isSome = true := by decide +kernel
  obtain ⟨⟨s, p⟩, hs⟩ := Option.isSome_iff_exists.mp hfirst
  have hshort : ((myMalloc page4096 true (blank 4096) 100).bind fun r =>
      shortfall r.1 (8000 + HEADER_SIZE)) = some 4068 := by decide +kernel
  have hret : ((myMalloc page4096 true (blank 4096) 100).bind fun r =>
      (myMalloc page4096 false r.1 8000).map Prod.snd) = some 4260 := by decide +kernel
  rw [hs] at hshort hret
  refine ⟨s, p, hs, hshort, rfl, ?_⟩
  rintro ⟨s', hres, -⟩
  have hnull : (myMalloc page4096 false s 8000).map Prod.snd = some NULL := by rw [hres]; rfl
  exact absurd (Option.some.inj (hnull.symm.trans hret)) (by decide)

end LinuxInterface.Malloc
