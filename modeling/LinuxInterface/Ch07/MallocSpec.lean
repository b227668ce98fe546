/-
  What the functions behind `my_malloc` do to the blocks of a tiled heap.

  One lemma a function, stated on the abstract view of `Ch07.Blocks` and cited by everything
  above; no later proof unfolds the code again.

  * `scan_fit`, `scan_extend`, `scan_none` — the three answers of `scan`, told apart by the
    list alone (`Fits`);
  * `Laid.cut`        — `resize_block`, on any list of blocks that do not overlap;
  * `TiledTo.carve`   — `resize_block` and the mark, on the block that was chosen;
  * `Tiled.append`    — `allocate` and `add_block`;
  * `Tiled.grow`      — `allocate` behind a free last block, which then takes the new memory.
-/
import LinuxInterface.Ch07.Blocks

namespace LinuxInterface.Malloc

open LinuxInterface

variable {R : Nat → Nat → Prop} {s : Heap} {start hi : Nat} {l r bs : List Blk} {b c p n t : Blk} {m : Nat}

/-! ## `scan` -/

/-- `b` can serve a request of `m` bytes. -/
def Fits (m : Nat) (b : Blk) : Prop := b.free = true ∧ m ≤ b.size

instance (m : Nat) (b : Blk) : Decidable (Fits m b) := inferInstanceAs (Decidable (_ ∧ _))

/-- A list of blocks has a first one that fits, or none that fits. -/
theorem firstFit_or_none (m : Nat) (bs : List Blk) :
    (∃ l b r, bs = l ++ b :: r ∧ Fits m b ∧ ∀ c ∈ l, ¬ Fits m c) ∨ ∀ c ∈ bs, ¬ Fits m c := by
  cases hf : bs.find? fun b => decide (Fits m b) with
  | some b =>
    obtain ⟨hb, l, r, rfl, hl⟩ := List.find?_eq_some_iff_append.mp hf
    refine Or.inl ⟨l, b, r, rfl, of_decide_eq_true hb, fun c hc => ?_⟩
    simpa using hl c hc
  | none =>
    refine Or.inr fun c hc => ?_
    simpa using List.find?_eq_none.mp hf c hc

/-- Every block left of another one has a successor. -/
theorem TiledTo.next_ne_null (h : TiledTo R hi s start (l ++ b :: r)) (hc : c ∈ l) :
    (s.mem c.addr).next ≠ NULL := by
  obtain ⟨l₁, l₂, rfl⟩ := List.append_of_mem hc
  show s.next c.addr ≠ NULL
  cases l₂ with
  | nil =>
    have h' : TiledTo R hi s start (l₁ ++ c :: b :: r) := by simpa using h
    rw [h'.next_eq]
    exact h'.addr_ne_null (by simp)
  | cons d l₂ =>
    have h' : TiledTo R hi s start (l₁ ++ c :: d :: (l₂ ++ b :: r)) := by simpa using h
    rw [h'.next_eq]
    exact h'.addr_ne_null (by simp)

/-- A loop that goes on along `next` at every block left of `b` comes to `b`, with rounds to
    spare. -/
theorem TiledTo.walk_to {ρ : Type} {body : Nat × Unit → Turn (Nat × Unit) ρ}
    (h : TiledTo R hi s start (l ++ b :: r))
    (hbody : ∀ c ∈ l, body (c.addr, ()) = .again ((s.mem c.addr).next, ())) :
    ∃ k, loopN body walkBound (s.firstBlock, ()) = loopN body (k + 1) (b.addr, ()) := by
  obtain ⟨k, hk⟩ : ∃ k, walkBound = (k + 1) + (l.map Blk.addr).length := by
    have hlen := h.length_lt
    simp only [List.length_append, List.length_cons, List.length_map] at hlen ⊢
    exact ⟨walkBound - l.length - 1, by omega⟩
  refine ⟨k, ?_⟩
  rw [hk]
  have hseg : Lseg s.next s.firstBlock (l.map Blk.addr) b.addr := (seg_mid.mp h.seg).1.1
  refine loopN_lseg (f := fun _ _ => ()) () hseg ?_ _
  intro a ha _
  obtain ⟨c, hc, rfl⟩ := List.mem_map.mp ha
  exact hbody c hc

/-- `scan` walks past the blocks that do not fit. -/
theorem scan_walk (h : TiledTo R hi s start (l ++ b :: r)) (hl : ∀ c ∈ l, ¬ Fits m c) :
    ∃ k, scan s m = loopN (scanBody s m) (k + 1) (b.addr, ()) := by
  have hne : s.firstBlock ≠ NULL := by
    rw [Ne, h.firstBlock_eq_null_iff]
    simp
  unfold scan
  rw [if_neg hne]
  refine h.walk_to fun c hc => ?_
  have hholds := h.seg.2 c (by simp [hc])
  have hnofit : ¬ ((s.mem c.addr).free = true ∧ (s.mem c.addr).size ≥ m) := by
    rw [hholds.1, hholds.2]
    exact hl c hc
  simp only [scanBody, if_neg hnofit, if_pos (h.next_ne_null hc)]

/-- `scan` returns the first block that fits. -/
theorem scan_fit (h : TiledTo R hi s start (l ++ b :: r)) (hb : Fits m b) (hl : ∀ c ∈ l, ¬ Fits m c) :
    scan s m = some (b.addr, false) := by
  obtain ⟨k, hk⟩ := scan_walk h hl
  have hholds := h.seg.2 b (by simp)
  rw [hk]
  apply loopN_leave
  have hfit : (s.mem b.addr).free = true ∧ (s.mem b.addr).size ≥ m := by
    rw [hholds.1, hholds.2]
    exact hb
  simp only [scanBody, if_pos hfit]

/-- With no block that fits, `scan` returns a free last block and says that it does not fit. -/
theorem scan_extend (h : TiledTo R hi s start (l ++ [t])) (ht : t.free = true)
    (hno : ∀ c ∈ l ++ [t], ¬ Fits m c) : scan s m = some (t.addr, true) := by
  obtain ⟨k, hk⟩ := scan_walk h fun c hc => hno c (by simp [hc])
  have hholds := h.seg.2 t (by simp)
  have hnofit : ¬ ((s.mem t.addr).free = true ∧ (s.mem t.addr).size ≥ m) := by
    rw [hholds.1, hholds.2]
    exact hno t (by simp)
  have hnext : ¬ (s.mem t.addr).next ≠ NULL := not_not.mpr h.next_last
  rw [hk]
  apply loopN_leave
  have hfree : (s.mem t.addr).free = true := hholds.2.trans ht
  show (if _ then _ else if _ then _ else if _ then _ else _) = _
  rw [if_neg hnofit, if_neg hnext, if_pos hfree]

/-- With no block that fits and no free last block, `scan` returns `NULL`. -/
theorem scan_none (h : TiledTo R hi s start bs) (hlast : ∀ l t, bs = l ++ [t] → t.free = false)
    (hno : ∀ c ∈ bs, ¬ Fits m c) : scan s m = some (NULL, false) := by
  rcases List.eq_nil_or_concat bs with rfl | ⟨l, t, rfl⟩
  · unfold scan
    rw [if_pos (h.firstBlock_eq_null_iff.mpr rfl)]
  · rw [List.concat_eq_append] at h hno hlast
    obtain ⟨k, hk⟩ := scan_walk h fun c hc => hno c (by simp [hc])
    have hholds := h.seg.2 t (by simp)
    have ht := hlast l t rfl
    have hnofree : ¬ (s.mem t.addr).free = true := by
      rw [hholds.2, ht]
      decide
    have hnext : ¬ (s.mem t.addr).next ≠ NULL := not_not.mpr h.next_last
    rw [hk]
    apply loopN_leave
    show (if _ then _ else if _ then _ else if _ then _ else _) = _
    rw [if_neg fun hfit => hnofree hfit.1, if_neg hnext, if_neg hnofree]

/-! ## Replacing a stretch of blocks

  Every change to the list rewrites a stretch of one or two blocks in place.  `TiledTo.splice` is
  the rule for that: only the stretch has to be looked at. -/

theorem seg_append {p q : Nat} :
    Seg s p (l ++ r) q ↔ ∃ x, Seg s p l x ∧ Seg s x r q := by
  simp only [Seg, List.map_append, lseg_append, List.forall_mem_append]
  constructor
  · rintro ⟨⟨x, hl, hr⟩, hbl, hbr⟩; exact ⟨x, ⟨hl, hbl⟩, hr, hbr⟩
  · rintro ⟨x, ⟨hl, hbl⟩, hr, hbr⟩; exact ⟨⟨x, hl, hr⟩, hbl, hbr⟩

/-- The header at `a`, but for its `prev`, is the same in both heaps. -/
def SameAt (s s' : Heap) (a : Nat) : Prop :=
  (s'.mem a).size = (s.mem a).size ∧ (s'.mem a).free = (s.mem a).free ∧
    (s'.mem a).next = (s.mem a).next

/-- **The splice rule.**  A change that keeps the headers outside a stretch and turns the
    stretch into one that links up the same way keeps the list. -/
theorem Seg.splice {s' : Heap} {p q : Nat} {u v : List Blk} (h : Seg s p (l ++ (u ++ r)) q)
    (hout : ∀ c ∈ l ++ r, SameAt s s' c.addr) (hseg : ∀ x y, Seg s x u y → Seg s' x v y) :
    Seg s' p (l ++ (v ++ r)) q := by
  obtain ⟨x, hl, hmr⟩ := seg_append.mp h
  obtain ⟨y, hm, hr⟩ := seg_append.mp hmr
  refine seg_append.mpr ⟨x, hl.congr fun c hc => hout c (by simp [hc]), ?_⟩
  exact seg_append.mpr ⟨y, hseg x y hm, hr.congr fun c hc => hout c (by simp [hc])⟩

/-- The splice rule for a tiled heap: the new stretch has to tile the same way, too. -/
theorem TiledTo.splice {s' : Heap} {u v : List Blk} (h : TiledTo R hi s start (l ++ (u ++ r)))
    (hseg : Seg s' s'.firstBlock (l ++ (v ++ r)) NULL)
    (htiles : ∀ x y, Tiles R Blk.addr Blk.size x u y → Tiles R Blk.addr Blk.size x v y)
    (hpos : ∀ c ∈ v, 0 < c.size) : TiledTo R hi s' start (l ++ (v ++ r)) where
  gap := h.gap
  seg := hseg
  tiles := by
    obtain ⟨x, hl, hmr⟩ := (tiles_append h.gap).mp h.tiles
    obtain ⟨y, hm, hr⟩ := (tiles_append h.gap).mp hmr
    exact (tiles_append h.gap).mpr ⟨x, hl, (tiles_append h.gap).mpr ⟨y, htiles x y hm, hr⟩⟩
  pos := by
    intro c hc
    rcases List.mem_append.mp hc with hc | hc
    · exact h.pos c (by simp [hc])
    · rcases List.mem_append.mp hc with hc | hc
      · exact hpos c hc
      · exact h.pos c (by simp [hc])
  start_pos := h.start_pos
  hi_lt := h.hi_lt

/-- A block that is replaced by one at the same place, with fewer blocks behind it. -/
theorem Listed.ne_null_replace {b' : Blk} {u : List Blk} (h : Listed s (l ++ b :: u))
    (ha : b'.addr = b.addr) (hr : r ⊆ u) : ∀ c ∈ l ++ b' :: r, c.addr ≠ NULL := by
  intro c hc
  rcases List.mem_append.mp hc with hc | hc
  · exact h.ne_null c (List.mem_append_left _ hc)
  · rcases List.mem_cons.mp hc with rfl | hc
    · rw [ha]
      exact h.ne_null b (by simp)
    · exact h.ne_null c (List.mem_append_right _ (List.mem_cons_of_mem b (hr hc)))

/-- Marking a block. -/
theorem Listed.setFree (h : Listed s (l ++ b :: r)) (f : Bool) :
    Listed (s.setFree b.addr f) (l ++ { b with free := f } :: r) where
  seg := by
    refine h.seg.splice (u := [b]) (v := [{ b with free := f }]) (fun c hc => ?_) ?_
    · simp [SameAt, h.addr_ne hc]
    · intro x y hm
      simp only [seg_cons, seg_nil, Holds, Heap.next] at hm ⊢
      simp [hm]
  ne_null := h.ne_null_replace rfl (List.Subset.refl r)

theorem TiledTo.setFree (h : TiledTo R hi s start (l ++ b :: r)) (f : Bool) :
    TiledTo R hi (s.setFree b.addr f) start (l ++ { b with free := f } :: r) := by
  refine h.splice (u := [b]) (v := [{ b with free := f }]) (h.laid.setFree f).seg ?_ ?_
  · intro x y hm
    simpa using hm
  · intro c hc
    rw [List.mem_singleton.mp hc]
    exact h.pos b (by simp)

/-! ## `resize_block` and the mark -/

/-- What `resize_block` makes of a block: the block itself when the rest beyond `m` bytes would
    not be worth a header, else the block cut down to `m` bytes and a free block behind it. -/
def cut (b : Blk) (m : Nat) : List Blk :=
  if b.size - m ≤ HEADER_SIZE then [b]
  else [{ b with size := m }, ⟨b.addr + m, b.size - m, true⟩]

/-- What becomes of a block that serves a request of `m` bytes: it is handed out whole when the
    rest would not be worth a header, else it is cut and the rest stays free. -/
def carve (b : Blk) (m : Nat) : List Blk :=
  if b.size - m ≤ HEADER_SIZE then [{ b with free := false }]
  else [⟨b.addr, m, false⟩, ⟨b.addr + m, b.size - m, true⟩]

/-- The block of `carve` that is handed out. -/
def served (b : Blk) (m : Nat) : Blk :=
  if b.size - m ≤ HEADER_SIZE then { b with free := false } else ⟨b.addr, m, false⟩

/-- The size that is left over does not wrap. -/
theorem Laid.sub_size (h : Laid s (l ++ b :: r)) (hm : m ≤ b.size) :
    subSz (s.mem b.addr).size m = b.size - m := by
  have hne := h.ne_null b (by simp)
  have htop := h.top b (by simp)
  rw [(h.seg.2 b (by simp)).1]
  rw [null_eq] at hne
  exact subSz_eq hm (by omega)

/-- The stores of `resize_block` on a block with more than a header to spare. -/
theorem resizeBlock_cut (h : Laid s (l ++ b :: r)) (hm : m ≤ b.size)
    (hcut : ¬ b.size - m ≤ HEADER_SIZE) : resizeBlock s b.addr m =
      ((((((s.setSize (b.addr + m) (b.size - m)).setFree (b.addr + m) true).setNext (b.addr + m)
        (s.next b.addr)).setPrev (b.addr + m) b.addr).setSize b.addr m).setNext b.addr
        (b.addr + m)) := by
  have htop := h.top b (by simp)
  have hadd : addSz b.addr m = b.addr + m := addSz_eq (by rw [headerSize_eq] at hcut; omega)
  unfold resizeBlock
  rw [h.sub_size hm, if_neg hcut, hadd]
  simp [Heap.next]

theorem resizeBlock_keep (h : Laid s (l ++ b :: r)) (hm : m ≤ b.size)
    (hkeep : b.size - m ≤ HEADER_SIZE) : resizeBlock s b.addr m = s := by
  unfold resizeBlock
  rw [h.sub_size hm, if_pos hkeep]

/-- No header of the list lies inside another block. -/
theorem Laid.addr_outside (h : Laid s (l ++ b :: r)) (hc : c ∈ l ++ r) :
    c.addr ≤ b.addr ∨ b.addr + b.size ≤ c.addr := by
  have hpair := List.pairwise_append.mp h.apart
  rcases List.mem_append.mp hc with hc | hc
  · rcases hpair.2.2 c hc b (by simp) with hle | hle
    · exact Or.inl (by omega)
    · exact Or.inr hle
  · rcases (List.pairwise_cons.mp hpair.2.1).1 c hc with hle | hle
    · exact Or.inr hle
    · exact Or.inl (by omega)

/-- **`resize_block`** on the list: the block becomes `cut b m`. -/
theorem Laid.cut (h : Laid s (l ++ b :: r)) (hm0 : 0 < m) (hm : m ≤ b.size) :
    Listed (resizeBlock s b.addr m) (l ++ (cut b m ++ r)) := by
  by_cases hkeep : b.size - m ≤ HEADER_SIZE
  · have hc : Malloc.cut b m = [b] := if_pos hkeep
    rw [resizeBlock_keep h hm hkeep, hc]
    exact h.toListed
  · have hc : Malloc.cut b m = [{ b with size := m }, ⟨b.addr + m, b.size - m, true⟩] :=
      if_neg hkeep
    rw [resizeBlock_cut h hm hkeep, hc]
    rw [headerSize_eq] at hkeep
    refine ⟨h.seg.splice (u := [b]) (fun c hc => ?_) ?_, ?_⟩
    · -- neither the block nor the cut-off rest is at the address of another block
      have hne : c.addr ≠ b.addr + m := by
        rcases h.addr_outside hc with hle | hle <;> omega
      simp [SameAt, h.addr_ne hc, hne]
    · intro x y hseg
      have hne : m ≠ 0 := by omega
      simp only [seg_cons, seg_nil, Holds, Heap.next] at hseg ⊢
      simp [hseg, hne]
    · intro c hc
      simp only [List.mem_append, List.mem_cons, List.not_mem_nil, or_false] at hc
      rcases hc with hc | (rfl | rfl) | hc
      · exact h.ne_null c (by simp [hc])
      · exact h.ne_null b (by simp)
      · show b.addr + m ≠ 0
        omega
      · exact h.ne_null c (by simp [hc])

theorem TiledTo.cut (h : TiledTo R hi s start (l ++ b :: r)) (hm0 : 0 < m) (hm : m ≤ b.size) :
    TiledTo R hi (resizeBlock s b.addr m) start (l ++ (cut b m ++ r)) := by
  have hpos := h.pos b (by simp)
  refine h.splice (u := [b]) (h.laid.cut hm0 hm).seg ?_ ?_
  · intro x y hxy
    obtain ⟨hx, hy⟩ : R x b.addr ∧ R (b.addr + b.size) y := hxy
    unfold Malloc.cut
    split
    · exact ⟨hx, hy⟩
    · refine ⟨hx, h.gap.refl _, ?_⟩
      show R (b.addr + m + (b.size - m)) y
      rw [show b.addr + m + (b.size - m) = b.addr + b.size by omega]
      exact hy
  · intro c hc
    unfold Malloc.cut at hc
    split at hc
    · rw [List.mem_singleton.mp hc]
      exact hpos
    · next hcut =>
      rw [headerSize_eq] at hcut
      simp only [List.mem_cons, List.not_mem_nil, or_false] at hc
      rcases hc with rfl | rfl
      · exact hm0
      · show 0 < b.size - m
        omega

/-- `resize_block` and the mark that follows it, on the blocks. -/
theorem TiledTo.carve (h : TiledTo R hi s start (l ++ b :: r)) (hm0 : 0 < m) (hm : m ≤ b.size) :
    TiledTo R hi ((resizeBlock s b.addr m).setFree b.addr false) start (l ++ (carve b m ++ r)) := by
  have hcut := h.cut hm0 hm
  by_cases hkeep : b.size - m ≤ HEADER_SIZE
  · rw [Malloc.cut, if_pos hkeep] at hcut
    rw [Malloc.carve, if_pos hkeep]
    exact hcut.setFree false
  · rw [Malloc.cut, if_neg hkeep] at hcut
    rw [Malloc.carve, if_neg hkeep]
    exact TiledTo.setFree (b := { b with size := m }) hcut false

/-! ## `allocate`, `add_block` and the extended last block -/

/-- The heap after a granted `allocate`: the break is up by `n` bytes and the header of the new
    block stands at the old break. -/
def freshBlock (s : Heap) (n : Nat) : Heap :=
  (((({ s with brk := s.brk + n }).setSize s.brk n).setFree s.brk true).setNext s.brk
    NULL).setPrev s.brk NULL

/-- What the kernel grants stays inside the address space. -/
theorem brk_lt_of_grants {x : Nat} {ok : Bool} (hx : x < 2 ^ 63)
    (hg : sbrkGrants s ok x = true) : s.brk + x < 2 ^ 64 := by
  unfold sbrkGrants at hg
  rw [toSigned_of_lt hx] at hg
  simp only [Bool.and_eq_true, decide_eq_true_eq] at hg
  omega

theorem allocate_granted {x : Nat} {ok : Bool} (hx0 : 0 < x) (hx : x < 2 ^ 63)
    (hg : sbrkGrants s ok x = true) : allocate s ok x = (freshBlock s x, s.brk) := by
  have hbrk := brk_lt_of_grants hx hg
  have hne : s.brk ≠ PTR_ERR := by
    show s.brk ≠ 2 ^ 64 - 1
    omega
  have hnew : ((s.brk : Int) + toSigned x).toNat = s.brk + x := by
    rw [toSigned_of_lt hx]
    omega
  unfold allocate sbrk
  rw [if_pos hg, hnew]
  show (if s.brk = PTR_ERR then _ else _) = _
  rw [if_neg hne]
  rfl

theorem allocate_refused {x : Nat} {ok : Bool} (hg : sbrkGrants s ok x = false) :
    allocate s ok x = ({ s with errno := .ENOMEM }, NULL) := by
  unfold allocate sbrk
  rw [hg]
  rfl

/-- The list does not see the new header: it lies beyond all of its blocks. -/
theorem Tiled.freshBlock (h : Tiled R s start bs) (x : Nat) :
    TiledTo R s.brk (freshBlock s x) start bs where
  gap := h.gap
  seg := by
    refine h.seg.congr fun b hb => ?_
    have hne : b.addr ≠ s.brk := Nat.ne_of_lt (h.addr_lt_hi hb)
    simp [Malloc.freshBlock, hne]
  tiles := h.tiles
  pos := h.pos
  start_pos := h.start_pos
  hi_lt := h.hi_lt

/-- The stores of `add_block`, once the last block is found. -/
def linkLast (s : Heap) (prevBlock newBlock : Nat) : Heap :=
  ((s.setNext prevBlock newBlock).setPrev newBlock prevBlock).setNext newBlock NULL

/-- `add_block` finds the end of the list. -/
theorem addBlock_concat (h : TiledTo R hi s start (l ++ [t])) (a : Nat) :
    addBlock s a = some (linkLast s t.addr a) := by
  have hne : s.firstBlock ≠ NULL := by
    rw [Ne, h.firstBlock_eq_null_iff]
    simp
  have hwalk : ∀ c ∈ l, addBlockBody s (c.addr, ()) = .again ((s.mem c.addr).next, ()) :=
    fun c hc => if_pos (h.next_ne_null hc)
  obtain ⟨k, hk⟩ := h.walk_to hwalk
  have hlast : ¬ (s.mem t.addr).next ≠ NULL := not_not.mpr h.next_last
  unfold addBlock
  rw [if_neg hne, hk, loopN_leave (if_neg hlast : addBlockBody s (t.addr, ()) = .leave t.addr)]
  rfl

/-- A fresh block put at the end of the list.  Its `prev` is right, and no other `prev`
    changes. -/
theorem Tiled.append {x : Nat} (h : Tiled R s start bs) (hx0 : 0 < x) (hbrk : s.brk + x < 2 ^ 64) :
    ∃ s', addBlock (Malloc.freshBlock s x) s.brk = some s' ∧ s'.brk = s.brk + x ∧
      Tiled R s' start (bs ++ [⟨s.brk, x, true⟩]) ∧ s'.prev s.brk = lastAddr bs ∧
      ∀ b ∈ bs, s'.prev b.addr = s.prev b.addr := by
  rcases List.eq_nil_or_concat bs with rfl | ⟨l, t, rfl⟩
  · -- the first block of all
    have hfirst : (Malloc.freshBlock s x).firstBlock = NULL := h.firstBlock_eq_null_iff.mpr rfl
    have hstart : R start s.brk := h.tiles
    refine ⟨_, if_pos hfirst, rfl, ⟨h.gap, ?_, ?_, ?_, h.start_pos, hbrk⟩, ?_, ?_⟩
    · rw [List.nil_append, seg_cons, seg_nil]
      refine ⟨rfl, ?_, ?_⟩
      · simp [Holds, Malloc.freshBlock]
      · simp [Heap.next]
    · exact ⟨hstart, h.gap.refl _⟩
    · exact List.forall_mem_singleton.mpr hx0
    · simp [Heap.prev]
    · intro b hb
      nomatch hb
  · -- behind the last block `t`
    rw [List.concat_eq_append] at h ⊢
    have hf := h.freshBlock x
    have hne : ∀ b ∈ l ++ [t], b.addr ≠ s.brk := fun b hb => Nat.ne_of_lt (h.addr_lt_hi hb)
    have htb : t.addr ≠ s.brk := hne t (by simp)
    refine ⟨_, addBlock_concat hf s.brk, rfl, ⟨h.gap, ?_, ?_, ?_, h.start_pos, hbrk⟩, ?_, ?_⟩
    · obtain ⟨hl, ht, -⟩ := seg_mid.mp hf.seg
      have hseg : Seg (linkLast (Malloc.freshBlock s x) t.addr s.brk) s.firstBlock
          (l ++ t :: [⟨s.brk, x, true⟩]) NULL := by
        refine seg_mid.mpr ⟨hl.congr fun c hc => ?_, ?_, seg_cons.mpr ⟨?_, ?_, ?_⟩⟩
        · have hct : c.addr ≠ t.addr := Nat.ne_of_lt (h.left_lt hc)
          simp [linkLast, hct, hne c (by simp [hc])]
        · simpa [Holds, linkLast] using ht
        · simp [Heap.next, linkLast, htb]
        · simp [Holds, linkLast, Malloc.freshBlock, htb.symm]
        · simp [Heap.next, linkLast]
      rw [List.append_assoc]
      exact hseg
    · exact (tiles_append h.gap).mpr ⟨s.brk, h.tiles, h.gap.refl _, h.gap.refl _⟩
    · exact List.forall_mem_append.mpr ⟨h.pos, List.forall_mem_singleton.mpr hx0⟩
    · simp [Heap.prev, linkLast]
    · intro b hb
      simp [Heap.prev, linkLast, Malloc.freshBlock, hne b hb]

/-- The memory behind a free last block, given to that block. -/
theorem Tiled.grow {x : Nat} (h : Tiled R s start (l ++ [t])) (hbrk : s.brk + x < 2 ^ 64) :
    Tiled R ((Malloc.freshBlock s x).setSize t.addr
      (addSz ((Malloc.freshBlock s x).mem t.addr).size x)) start
      (l ++ [{ t with size := t.size + x }]) := by
  have hne : ∀ b ∈ l ++ [t], b.addr ≠ s.brk := fun b hb => Nat.ne_of_lt (h.addr_lt_hi hb)
  have htb : t.addr ≠ s.brk := hne t (by simp)
  have hend : R (t.addr + t.size) s.brk := (tiles_mid.mp h.tiles).2
  have hle := h.gap.le hend
  have hsize : addSz ((Malloc.freshBlock s x).mem t.addr).size x = t.size + x := by
    have hholds := (h.seg.2 t (by simp)).1
    have hfs : ((Malloc.freshBlock s x).mem t.addr).size = t.size := by
      simpa [Malloc.freshBlock, htb] using hholds
    rw [hfs]
    exact addSz_eq (by omega)
  rw [hsize]
  refine ⟨h.gap, ?_, ?_, ?_, h.start_pos, hbrk⟩
  · obtain ⟨hl, ht, hnil⟩ := seg_mid.mp h.seg
    refine seg_mid.mpr ⟨hl.congr fun c hc => ?_, ?_, ?_⟩
    · have hct : c.addr ≠ t.addr := Nat.ne_of_lt (h.left_lt hc)
      simp [Malloc.freshBlock, hct, hne c (by simp [hc])]
    · refine ⟨by simp, ?_⟩
      simpa [Malloc.freshBlock, htb] using ht.2
    · simpa [Heap.next, Malloc.freshBlock, htb] using hnil
  · refine tiles_mid.mpr ⟨(tiles_mid.mp h.tiles).1, ?_⟩
    show R (t.addr + (t.size + x)) (s.brk + x)
    rw [← Nat.add_assoc]
    exact h.gap.add x hend
  · intro b hb
    rcases List.mem_append.mp hb with hb | hb
    · exact h.pos b (by simp [hb])
    · rw [List.mem_singleton.mp hb]
      have := h.pos t (by simp)
      show 0 < t.size + x
      omega

end LinuxInterface.Malloc
