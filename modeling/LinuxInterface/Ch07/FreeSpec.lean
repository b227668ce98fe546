/-
  What the functions behind `my_free` do to the blocks of a tiled heap.

  `free_and_merge` joins the freed block to a free neighbour on either side: `absorbLeft` and
  `absorbRight` say so on the list of blocks and `freed` puts the two together.
  `Listed.freeAndMerge` is what it does to any list, `Tidy.freeAndMerge` what that means on a heap
  in good order.  The links to the LEFT are where the code can go wrong, so every lemma says what
  it needs of `prev` and what it leaves of it:

  * `mergePrev` follows the `prev` of the freed block, and repairs the `prev` behind it;
  * `mergeNext` follows no `prev`, and leaves the one behind the absorbed block stale;
  * `release_resource_if_need` follows the `prev` of the last block, if that is free.

  Hence the invariant `FreeLinked`: the FREE blocks have an exact `prev`.  No step makes the
  `prev` of a free block stale, since the block behind a free one is never free.
-/
import LinuxInterface.Ch07.MallocSpec
import Mathlib.Data.List.DropRight

namespace LinuxInterface.Malloc

open LinuxInterface

variable {R : Nat → Nat → Prop} {s : Heap} {start hi : Nat} {l r bs : List Blk}
  {b c p n t : Blk}

/-- The free blocks of `bs` have an exact `prev`. -/
def FreeLinked (s : Heap) (bs : List Blk) : Prop := Linked s (fun b => b.free = true) bs

/-! ## `free_and_merge`

  Both halves do the same thing to the list: a block takes over its right neighbour.  That is said
  of any list of blocks (`Listed`); that a tiled list stays tiled is a fact about lists alone
  (`tiles_freed`). -/

/-- **The joining rule.**  A change that gives `b` the size and the `next` of the two blocks and
    touches no other header, `prev` aside, joins `n` to `b`. -/
theorem Listed.join {s' : Heap} (h : Listed s (l ++ b :: n :: r))
    (hfirst : s'.firstBlock = s.firstBlock) (hout : ∀ a, a ≠ b.addr → SameAt s s' a)
    (hsize : (s'.mem b.addr).size = b.size + n.size)
    (hfree : (s'.mem b.addr).free = (s.mem b.addr).free)
    (hnext : (s'.mem b.addr).next = s.next n.addr) :
    Listed s' (l ++ { b with size := b.size + n.size } :: r) where
  seg := by
    rw [hfirst]
    refine h.seg.splice (u := [b, n]) (v := [{ b with size := b.size + n.size }]) ?_ ?_
    · intro c hc
      refine hout c.addr (h.addr_ne ?_)
      rcases List.mem_append.mp hc with hc | hc
      · simp [hc]
      · simp [hc]
    · intro x y hm
      obtain ⟨hx, hb, -, -, hy⟩ : x = b.addr ∧ Holds s b ∧ s.next b.addr = n.addr ∧ Holds s n ∧
          s.next n.addr = y := by
        simpa [seg_cons] using hm
      exact seg_cons.mpr ⟨hx, ⟨hsize, hfree.trans hb.2⟩, seg_nil.mpr (hnext.trans hy)⟩
  ne_null := h.ne_null_replace rfl (List.subset_cons_self n r)

/-- The two sizes add up, if the sum is not too large. -/
theorem Listed.sizes_add (h : Listed s (l ++ b :: n :: r)) (hsum : b.size + n.size < 2 ^ 64) :
    addSz (s.mem b.addr).size (s.mem n.addr).size = b.size + n.size := by
  rw [(h.seg.2 b (by simp)).1, (h.seg.2 n (by simp)).1]
  exact addSz_eq hsum

/-- The stores of the first half, when there is something to join. -/
def joinPrev (s : Heap) (p b : Blk) : Heap :=
  let s' := (s.setSize p.addr (p.size + b.size)).setNext p.addr (s.next b.addr)
  if s.next b.addr ≠ NULL then s'.setPrev (s.next b.addr) p.addr else s'

/-- What the stores do to the headers, but for the `prev`s … -/
theorem joinPrev_mem (s : Heap) (p b : Blk) (a : Nat) :
    ((joinPrev s p b).mem a).size = (if a = p.addr then p.size + b.size else (s.mem a).size) ∧
      ((joinPrev s p b).mem a).free = (s.mem a).free ∧
      ((joinPrev s p b).mem a).next = if a = p.addr then s.next b.addr else (s.mem a).next := by
  unfold joinPrev
  by_cases hn : s.next b.addr = 0 <;> simp [hn]

/-- … to the `prev`s … -/
theorem joinPrev_prev_eq (s : Heap) (p b : Blk) (a : Nat) : (joinPrev s p b).prev a =
    if s.next b.addr ≠ NULL ∧ a = s.next b.addr then p.addr else s.prev a := by
  unfold joinPrev
  by_cases hn : s.next b.addr = 0
  · simp [hn, Heap.prev]
  · by_cases ha : a = s.next b.addr
    · simp [hn, Heap.prev, ha]
    · simp [hn, Heap.prev, ha]

/-- … and to the rest. -/
theorem joinPrev_globals (s : Heap) (p b : Blk) :
    (joinPrev s p b).firstBlock = s.firstBlock ∧ (joinPrev s p b).brk = s.brk := by
  unfold joinPrev
  by_cases hn : s.next b.addr = 0 <;> simp [hn]

theorem mergePrev_eq (h : Listed s (l ++ p :: b :: r)) (hsum : p.size + b.size < 2 ^ 64)
    (hp : p.free = true) (hprev : s.prev b.addr = p.addr) :
    mergePrev s b.addr = (joinPrev s p b, p.addr) := by
  have hprev' : (s.mem b.addr).prev = p.addr := hprev
  have hholdsp := h.seg.2 p (by simp)
  have hpn : p.addr ≠ NULL := h.ne_null p (by simp)
  have hcond : (s.mem b.addr).prev ≠ NULL ∧ (s.mem (s.mem b.addr).prev).free = true := by
    rw [hprev']
    exact ⟨hpn, hholdsp.2.trans hp⟩
  unfold mergePrev joinPrev
  rw [if_pos hcond, hprev', h.sizes_add hsum]
  have hne : b.addr ≠ p.addr := h.addr_ne (by simp)
  by_cases hnext : s.next b.addr = NULL
  · have hn : (s.mem b.addr).next = 0 := hnext
    simp [hne, hprev', hn, Heap.next]
  · have hn : ¬ (s.mem b.addr).next = 0 := hnext
    -- the successor of `b` is not `b`: writing its `prev` does not disturb `b->prev`
    have hbn : b.addr ≠ (s.mem b.addr).next := by
      have h' : Listed s ((l ++ [p]) ++ b :: r) := by simpa using h
      cases r with
      | nil => exact absurd h'.next_last hnext
      | cons d r =>
        have hd : (s.mem b.addr).next = d.addr := h'.next_eq
        rw [hd]
        exact (h'.addr_ne (by simp)).symm
    simp [hne, hprev', hn, Heap.next, hbn]

/-- With exact back links on both sides nothing is joined to an allocated predecessor. -/
theorem mergePrev_skip (h : Listed s (l ++ b :: r)) (hprev : s.prev b.addr = lastAddr l)
    (hl : ∀ p ∈ l.getLast?, p.free = false) : mergePrev s b.addr = (s, b.addr) := by
  have hcond : ¬ ((s.mem b.addr).prev ≠ NULL ∧ (s.mem (s.mem b.addr).prev).free = true) := by
    have hprev' : (s.mem b.addr).prev = lastAddr l := hprev
    rw [hprev']
    rcases List.eq_nil_or_concat l with rfl | ⟨l', p, rfl⟩
    · simp
    · rw [List.concat_eq_append] at h hl
      have hp := (h.seg.2 p (by simp)).2
      simp [hp, hl p (by simp)]
  unfold mergePrev
  rw [if_neg hcond]

/-- The first half of `free_and_merge` joins a block to its free predecessor. -/
theorem Listed.joinPrev (h : Listed s (l ++ p :: b :: r)) :
    Listed (joinPrev s p b) (l ++ { p with size := p.size + b.size } :: r) := by
  obtain ⟨hsize, hfree, hnext⟩ := joinPrev_mem s p b p.addr
  rw [if_pos rfl] at hsize hnext
  refine h.join (joinPrev_globals s p b).1 (fun a ha => ?_) hsize hfree hnext
  obtain ⟨h1, h2, h3⟩ := joinPrev_mem s p b a
  rw [if_neg ha] at h1 h3
  exact ⟨h1, h2, h3⟩

theorem joinPrev_prev_same {a : Nat} (ha : a ≠ s.next b.addr) :
    (joinPrev s p b).prev a = s.prev a := by
  rw [joinPrev_prev_eq, if_neg fun h => ha h.2]

/-- The first half repairs the `prev` behind the joined block and touches no other. -/
theorem joinPrev_prev (h : Listed s (l ++ p :: b :: r)) {Q : Blk → Prop} (hQ : Q p)
    (hlink : Linked s Q (l ++ p :: b :: r)) :
    Linked (joinPrev s p b) Q (l ++ { p with size := p.size + b.size } :: r) := by
  obtain ⟨hl, hp, -, hr⟩ := linked_mid.mp hlink
  have h' : Listed s ((l ++ [p]) ++ b :: r) := by simpa using h
  have hleft : ∀ c ∈ l ++ [p], (joinPrev s p b).prev c.addr = s.prev c.addr :=
    fun c hc => joinPrev_prev_same (h'.next_ne_left hc)
  have hl' := hl.congr fun c hc _ => hleft c (by simp [hc])
  have hp' : (joinPrev s p b).prev p.addr = lastAddr l := (hleft p (by simp)).trans (hp hQ)
  cases r with
  | nil => exact linked_concat.mpr ⟨hl', fun _ => hp'⟩
  | cons d r =>
    have hnext : s.next b.addr = d.addr := h'.next_eq
    have hdn : d.addr ≠ 0 := h.ne_null d (by simp)
    have hd : (joinPrev s p b).prev d.addr = p.addr := by
      rw [joinPrev_prev_eq, hnext, if_pos ⟨hdn, rfl⟩]
    have h'' : Listed s ((l ++ [p, b]) ++ d :: r) := by simpa using h
    refine linked_mid.mpr ⟨hl', fun _ => hp', fun _ => hd,
      hr.2.congr fun c hc _ => joinPrev_prev_same ?_⟩
    rw [hnext]
    exact h''.addr_ne (by simp [hc])

/-- The blocks left of `b` and what `b` becomes when it is joined to a free predecessor. -/
def absorbLeft (l : List Blk) (b : Blk) : List Blk × Blk :=
  match l.getLast? with
  | some p => if p.free = true then (l.dropLast, { p with size := p.size + b.size }) else (l, b)
  | none => (l, b)

/-- What `b` and the blocks right of it become when a free successor is joined to it. -/
def absorbRight (b : Blk) : List Blk → List Blk
  | [] => [b]
  | n :: r => if n.free = true then { b with size := b.size + n.size } :: r else b :: n :: r

/-- The list after `b` is freed. -/
def freed (l : List Blk) (b : Blk) (r : List Blk) : List Blk :=
  (absorbLeft l { b with free := true }).1 ++ absorbRight (absorbLeft l { b with free := true }).2 r

theorem absorbLeft_free (l : List Blk) (b : Blk) (hp : p.free = true) :
    absorbLeft (l ++ [p]) b = (l, { p with size := p.size + b.size }) := by
  simp [absorbLeft, hp]

theorem absorbLeft_busy (b : Blk) (hl : ∀ p ∈ l.getLast?, p.free = false) :
    absorbLeft l b = (l, b) := by
  unfold absorbLeft
  cases hlast : l.getLast? with
  | none => rfl
  | some p => exact if_neg (by simp [hl p hlast])

theorem absorbRight_free (b : Blk) (r : List Blk) (hn : n.free = true) :
    absorbRight b (n :: r) = { b with size := b.size + n.size } :: r := if_pos hn

theorem absorbRight_busy (b : Blk) (hr : ∀ n ∈ r.head?, n.free = false) :
    absorbRight b r = b :: r := by
  cases r with
  | nil => rfl
  | cons n r => exact if_neg (by simp [hr n rfl])

/-- The list ends in a free block, or it does not. -/
theorem last_free_or (l : List Blk) :
    (∃ l' p, l = l' ++ [p] ∧ p.free = true) ∨ ∀ p ∈ l.getLast?, p.free = false := by
  rcases List.eq_nil_or_concat l with rfl | ⟨l', p, rfl⟩
  · exact Or.inr fun p hp => (nomatch hp)
  · rw [List.concat_eq_append]
    cases hp : p.free with
    | true => exact Or.inl ⟨l', p, rfl, hp⟩
    | false =>
      refine Or.inr fun q hq => ?_
      have hpq : p = q := by simpa using hq
      rw [← hpq]
      exact hp

/-- The list begins with a free block, or it does not. -/
theorem head_free_or (r : List Blk) :
    (∃ n r', r = n :: r' ∧ n.free = true) ∨ ∀ n ∈ r.head?, n.free = false := by
  cases r with
  | nil => exact Or.inr fun n hn => (nomatch hn)
  | cons n r =>
    cases hn : n.free with
    | true => exact Or.inl ⟨n, r, rfl, hn⟩
    | false =>
      refine Or.inr fun m hm => ?_
      rw [← Option.some.inj hm]
      exact hn

/-- The first half of `free_and_merge`, on the list.  Back links of whatever kind of blocks, free
    ones among them, stay as good as they were. -/
theorem Listed.mergePrev (h : Listed s (l ++ b :: r)) (hprev : s.prev b.addr = lastAddr l)
    (hsum : ∀ p ∈ l.getLast?, p.size + b.size < 2 ^ 64) :
    ∃ s', Malloc.mergePrev s b.addr = (s', (absorbLeft l b).2.addr) ∧ s'.brk = s.brk ∧
      Listed s' ((absorbLeft l b).1 ++ (absorbLeft l b).2 :: r) ∧
      ∀ Q : Blk → Prop, (∀ p, p.free = true → Q p) → Linked s Q (l ++ b :: r) →
        Linked s' Q ((absorbLeft l b).1 ++ (absorbLeft l b).2 :: r) := by
  rcases last_free_or l with ⟨l', p, rfl, hp⟩ | hl
  · rw [absorbLeft_free _ _ hp]
    have h' : Listed s (l' ++ p :: b :: r) := by simpa using h
    rw [lastAddr_concat] at hprev
    refine ⟨Malloc.joinPrev s p b, mergePrev_eq h' (hsum p (by simp)) hp hprev,
      (joinPrev_globals s p b).2, h'.joinPrev, fun Q hQ hlink => ?_⟩
    have hlink' : Linked s Q (l' ++ p :: b :: r) := by simpa using hlink
    exact joinPrev_prev h' (hQ p hp) hlink'
  · rw [absorbLeft_busy b hl]
    exact ⟨s, mergePrev_skip h hprev hl, rfl, h, fun _ _ hlink => hlink⟩

/-- The stores of the second half, when there is something to join. -/
theorem mergeNext_eq (h : Listed s (l ++ b :: n :: r)) (hsum : b.size + n.size < 2 ^ 64)
    (hn : n.free = true) :
    mergeNext s b.addr = (s.setSize b.addr (b.size + n.size)).setNext b.addr (s.next n.addr) := by
  have hnext : (s.mem b.addr).next = n.addr := h.next_eq
  have hcond : (s.mem b.addr).next ≠ NULL ∧ (s.mem (s.mem b.addr).next).free = true := by
    rw [hnext]
    exact ⟨h.ne_null n (by simp), (h.seg.2 n (by simp)).2.trans hn⟩
  have hnb : n.addr ≠ b.addr := h.addr_ne (by simp)
  unfold mergeNext
  rw [if_pos hcond, hnext, h.sizes_add hsum]
  simp [hnext, hnb, Heap.next]

/-- Nothing is joined to the last block, and no block that is handed out. -/
theorem mergeNext_skip (h : Listed s (l ++ b :: r))
    (hr : ∀ n ∈ r.head?, n.free = false) : mergeNext s b.addr = s := by
  refine if_neg fun hcond => ?_
  cases r with
  | nil => exact hcond.1 h.next_last
  | cons n r =>
    have hnext : (s.mem b.addr).next = n.addr := h.next_eq
    have hfree := hcond.2
    rw [hnext, (h.seg.2 n (by simp)).2, hr n rfl] at hfree
    nomatch hfree

/-- The second half of `free_and_merge`, on the list.  It changes no `prev`. -/
theorem Listed.mergeNext (h : Listed s (l ++ b :: r))
    (hsum : ∀ n ∈ r.head?, b.size + n.size < 2 ^ 64) :
    Listed (mergeNext s b.addr) (l ++ absorbRight b r) ∧
      (Malloc.mergeNext s b.addr).brk = s.brk ∧
      ∀ a, (Malloc.mergeNext s b.addr).prev a = s.prev a := by
  rcases head_free_or r with ⟨n, r, rfl, hn⟩ | hr
  · rw [mergeNext_eq h (hsum n rfl) hn, absorbRight_free b r hn]
    refine ⟨h.join rfl (fun a ha => ?_) ?_ ?_ ?_, rfl, fun a => ?_⟩
    · simp [SameAt, ha]
    · simp
    · simp
    · simp
    · simp [Heap.prev]
  · rw [mergeNext_skip h hr, absorbRight_busy b hr]
    exact ⟨h, rfl, fun _ => rfl⟩

/-- The mark that `free_and_merge` starts with. -/
theorem linked_mark {Q : Blk → Prop} (hlink : Linked s Q (l ++ b :: r))
    (hprev : s.prev b.addr = lastAddr l) :
    Linked (s.setFree b.addr true) Q (l ++ { b with free := true } :: r) := by
  obtain ⟨hl, -, hr⟩ := linked_mid.mp hlink
  have hsame : ∀ a, (s.setFree b.addr true).prev a = s.prev a := fun a => by simp [Heap.prev]
  refine linked_mid.mpr ⟨hl.congr fun c _ _ => hsame _, fun _ => ?_, hr.congr fun c _ _ => hsame _⟩
  rw [hsame]
  exact hprev

/-- **`free_and_merge`** on any list of blocks.  The list becomes `freed l b r`; the back links are
    afterwards those of the list before the block on the right was joined. -/
theorem Listed.freeAndMerge (h : Listed s (l ++ b :: r)) (hprev : s.prev b.addr = lastAddr l)
    (hleft : ∀ p ∈ l.getLast?, p.size + b.size < 2 ^ 64)
    (hright : ∀ n ∈ r.head?, (absorbLeft l { b with free := true }).2.size + n.size < 2 ^ 64) :
    Listed (freeAndMerge s b.addr) (freed l b r) ∧ (Malloc.freeAndMerge s b.addr).brk = s.brk ∧
      ∀ Q : Blk → Prop, (∀ p, p.free = true → Q p) → Linked s Q (l ++ b :: r) →
        Linked (Malloc.freeAndMerge s b.addr) Q
          ((absorbLeft l { b with free := true }).1 ++
            (absorbLeft l { b with free := true }).2 :: r) := by
  -- mark the block, join it to the left, join its successor to it
  have h1 := h.setFree true
  have hprev1 : (s.setFree b.addr true).prev b.addr = lastAddr l := by
    simpa [Heap.prev] using hprev
  obtain ⟨s2, heq2, hbrk2, h2, hlink2⟩ := h1.mergePrev hprev1 hleft
  obtain ⟨h3, hbrk3, hprev3⟩ := h2.mergeNext hright
  have heq : Malloc.freeAndMerge s b.addr =
      Malloc.mergeNext s2 (absorbLeft l { b with free := true }).2.addr := by
    unfold Malloc.freeAndMerge
    rw [heq2]
  rw [heq]
  refine ⟨h3, hbrk3.trans hbrk2, fun Q hQ hlink => ?_⟩
  exact (hlink2 Q hQ (linked_mark hlink hprev)).congr fun c _ _ => hprev3 c.addr

/-- Absorbing a free successor keeps the back links of the free blocks: the block whose `prev`
    goes stale is not free. -/
theorem freeLinked_absorbRight (hsep : Sep r) (hlink : FreeLinked s (l ++ b :: r)) :
    FreeLinked s (l ++ absorbRight b r) := by
  rcases head_free_or r with ⟨n, r, rfl, hn⟩ | hr
  · rw [absorbRight_free b r hn]
    obtain ⟨hl, hb, -, hr⟩ := linked_mid.mp hlink
    refine linked_mid.mpr ⟨hl, hb, hr.restart ?_⟩
    intro d hd hdfree
    exact (List.isChain_cons.mp hsep).1 d hd ⟨hn, hdfree⟩
  · rw [absorbRight_busy b hr]
    exact hlink

/-! ### What freeing does to the list of blocks -/

/-- The blocks that are handed out. -/
def busy (bs : List Blk) : List Blk := bs.filter fun b => !b.free

@[simp] theorem busy_append (l r : List Blk) : busy (l ++ r) = busy l ++ busy r :=
  List.filter_append ..

theorem busy_cons_free (hb : b.free = true) (r : List Blk) : busy (b :: r) = busy r := by
  simp [busy, hb]

theorem busy_cons_busy (hb : b.free = false) (r : List Blk) : busy (b :: r) = b :: busy r := by
  simp [busy, hb]

theorem mem_busy : b ∈ busy bs ↔ b ∈ bs ∧ b.free = false := by
  simp [busy]

theorem sep_append : Sep (l ++ r) ↔ Sep l ∧ Sep r ∧
    ∀ a ∈ l.getLast?, ∀ b ∈ r.head?, ¬ (a.free = true ∧ b.free = true) := List.isChain_append

/-- Left of the freed block, a block that stays is not free. -/
theorem absorbLeft_spec (b : Blk) (hl : Sep l) : Sep (absorbLeft l b).1 ∧
    (∀ a ∈ (absorbLeft l b).1.getLast?, a.free = false) ∧
    busy (absorbLeft l b).1 = busy l ∧ b.size ≤ (absorbLeft l b).2.size ∧
    ∀ c ∈ (absorbLeft l b).1, c ∈ l := by
  rcases last_free_or l with ⟨l', p, rfl, hp⟩ | hlast
  · rw [absorbLeft_free _ _ hp]
    obtain ⟨hl', -, hsep⟩ := sep_append.mp hl
    refine ⟨hl', fun a ha => ?_, ?_, Nat.le_add_left _ _, fun c hc => by simp [hc]⟩
    · have := hsep a ha p rfl
      simpa [hp] using this
    · rw [busy_append, busy_cons_free hp]
      exact (List.append_nil _).symm
  · rw [absorbLeft_busy b hlast]
    exact ⟨hl, hlast, rfl, Nat.le_refl _, fun c hc => hc⟩

/-- The joined block is free if the block was. -/
theorem absorbLeft_isFree (l : List Blk) (hb : b.free = true) : (absorbLeft l b).2.free = true := by
  rcases last_free_or l with ⟨l', p, rfl, hp⟩ | hlast
  · rw [absorbLeft_free _ _ hp]
    exact hp
  · rw [absorbLeft_busy b hlast]
    exact hb

/-- Right of the freed block, the block that stays is not free. -/
theorem absorbRight_spec (hb : b.free = true) (hr : Sep r) : Sep (absorbRight b r) ∧
    busy (absorbRight b r) = busy r ∧
    ∀ c ∈ absorbRight b r, b.size ≤ c.size ∨ c ∈ r := by
  rcases head_free_or r with ⟨n, r, rfl, hn⟩ | hhead
  · rw [absorbRight_free b r hn]
    refine ⟨?_, ?_, fun c hc => ?_⟩
    · have hr' := List.isChain_cons.mp hr
      refine List.isChain_cons.mpr ⟨fun d hd hfree => ?_, hr'.2⟩
      exact hr'.1 d hd ⟨hn, hfree.2⟩
    · rw [busy_cons_free hn]
      exact busy_cons_free (b := { b with size := b.size + n.size }) hb r
    · rcases List.mem_cons.mp hc with rfl | hc
      · exact Or.inl (Nat.le_add_right _ _)
      · exact Or.inr (List.mem_cons_of_mem n hc)
  · rw [absorbRight_busy b hhead]
    refine ⟨List.isChain_cons.mpr ⟨fun d hd hfree => ?_, hr⟩, busy_cons_free hb _, fun c hc => ?_⟩
    · rw [hhead d hd] at hfree
      exact absurd hfree.2 (by decide)
    · rcases List.mem_cons.mp hc with rfl | hc
      · exact Or.inl (Nat.le_refl _)
      · exact Or.inr hc

/-- Two neighbouring tiles joined. -/
theorem tiles_join (hR : GapRel R) {x y : Nat}
    (h : Tiles R Blk.addr Blk.size x (l ++ b :: n :: r) y) :
    Tiles R Blk.addr Blk.size x (l ++ { b with size := b.size + n.size } :: r) y := by
  obtain ⟨hl, hbn, hr⟩ := tiles_mid.mp h
  refine tiles_mid.mpr ⟨hl, Tiles.weaken hR ?_ hr⟩
  show R (b.addr + (b.size + n.size)) (n.addr + n.size)
  rw [← Nat.add_assoc]
  exact hR.add n.size hbn

/-- The list after `b` is freed covers what it covered before. -/
theorem tiles_freed (hR : GapRel R) {x y : Nat}
    (h : Tiles R Blk.addr Blk.size x (l ++ b :: r) y) :
    Tiles R Blk.addr Blk.size x (freed l b r) y := by
  have hmark : Tiles R Blk.addr Blk.size x (l ++ { b with free := true } :: r) y := by
    obtain ⟨hl, hr⟩ := tiles_mid.mp h
    exact tiles_mid.mpr ⟨hl, hr⟩
  have hleft : Tiles R Blk.addr Blk.size x ((absorbLeft l { b with free := true }).1 ++
      (absorbLeft l { b with free := true }).2 :: r) y := by
    rcases last_free_or l with ⟨l', p, rfl, hp⟩ | hlast
    · rw [absorbLeft_free _ _ hp]
      rw [List.append_assoc] at hmark
      exact tiles_join hR hmark
    · rw [absorbLeft_busy _ hlast]
      exact hmark
  unfold freed
  rcases head_free_or r with ⟨n, r, rfl, hn⟩ | hhead
  · rw [absorbRight_free _ r hn]
    exact tiles_join hR hleft
  · rw [absorbRight_busy _ hhead]
    exact hleft

/-- The sizes that `free_and_merge` adds up are those of blocks that do not overlap. -/
theorem Laid.freed_sizes (h : Laid s (l ++ b :: r)) :
    (∀ p ∈ l.getLast?, p.size + b.size < 2 ^ 64) ∧
      ∀ n ∈ r.head?, (absorbLeft l { b with free := true }).2.size + n.size < 2 ^ 64 := by
  have hbn := h.ne_null b (by simp)
  have hbtop := h.top b (by simp)
  obtain ⟨-, hbr, hlbr⟩ := List.pairwise_append.mp h.apart
  rw [null_eq] at hbn
  refine ⟨fun p hp => ?_, fun n hn => ?_⟩
  · have hpl : p ∈ l := List.mem_of_getLast? hp
    have hpn := h.ne_null p (by simp [hpl])
    have hptop := h.top p (by simp [hpl])
    have hpb := hlbr p hpl b (by simp)
    rw [null_eq] at hpn
    omega
  · have hnr : n ∈ r := List.mem_of_head? hn
    have hnn := h.ne_null n (by simp [hnr])
    have hntop := h.top n (by simp [hnr])
    have hbn' := (List.pairwise_cons.mp hbr).1 n hnr
    rw [null_eq] at hnn
    rcases last_free_or l with ⟨l', p, rfl, hp⟩ | hlast
    · rw [absorbLeft_free _ _ hp]
      have hpn := h.ne_null p (by simp)
      have hptop := h.top p (by simp)
      have hpb := hlbr p (by simp) b (by simp)
      have hpn' := hlbr p (by simp) n (by simp [hnr])
      rw [null_eq] at hpn
      show p.size + b.size + n.size < 2 ^ 64
      omega
    · rw [absorbLeft_busy _ hlast]
      show b.size + n.size < 2 ^ 64
      omega

/-- **`free_and_merge`** on a tidy heap: the list becomes `freed l b r`, the heap stays tidy and
    the free blocks keep an exact `prev`.  All it needs is the `prev` of the freed block. -/
theorem Tidy.freeAndMerge (h : Tidy R s start (l ++ b :: r)) (hlink : FreeLinked s (l ++ b :: r))
    (hprev : s.prev b.addr = lastAddr l) :
    Tidy R (freeAndMerge s b.addr) start (freed l b r) ∧
      FreeLinked (Malloc.freeAndMerge s b.addr) (freed l b r) ∧
      (Malloc.freeAndMerge s b.addr).brk = s.brk ∧ busy (freed l b r) = busy (l ++ r) := by
  obtain ⟨hsl, hsbr, -⟩ := sep_append.mp h.sep
  have hsr : Sep r := (List.isChain_cons.mp hsbr).2
  obtain ⟨hfitl, hfitr⟩ := h.laid.freed_sizes
  obtain ⟨hlist, hbrk, hlinks⟩ := h.laid.toListed.freeAndMerge hprev hfitl hfitr
  obtain ⟨hsepl, hlast, hbusyl, hsizel, hmeml⟩ := absorbLeft_spec { b with free := true } hsl
  have hjoined := absorbLeft_isFree (b := { b with free := true }) l rfl
  obtain ⟨hsepr, hbusyr, hsizer⟩ := absorbRight_spec hjoined hsr
  have hbig : ∀ c ∈ freed l b r, HEADER_SIZE < c.size := by
    intro c hc
    rcases List.mem_append.mp hc with hc | hc
    · exact h.big c (by simp [hmeml c hc])
    · rcases hsizer c hc with hle | hc
      · have hb := h.big b (by simp)
        have : b.size ≤ (absorbLeft l { b with free := true }).2.size := hsizel
        omega
      · exact h.big c (by simp [hc])
  refine ⟨⟨⟨h.gap, hlist.seg, ?_, ?_, h.start_pos, ?_⟩, hbig, ?_⟩, ?_, hbrk, ?_⟩
  · rw [hbrk]
    exact tiles_freed h.gap h.tiles
  · intro c hc
    exact Nat.lt_of_le_of_lt (Nat.zero_le _) (hbig c hc)
  · rw [hbrk]
    exact h.hi_lt
  · refine sep_append.mpr ⟨hsepl, hsepr, fun a ha d _ hfree => ?_⟩
    rw [hlast a ha] at hfree
    exact absurd hfree.1 (by decide)
  · exact freeLinked_absorbRight hsr (hlinks _ (fun _ hp => hp) hlink)
  · rw [freed, busy_append, busy_append, hbusyl, hbusyr]

/-! ## `release_resource_if_need` -/

/-- The loop folds its accumulator over the list. -/
theorem trailingFree_eq (h : TiledTo R hi s start bs) :
    trailingFree s = some ((bs.map Blk.addr).foldl (releaseAcc s) (NULL, 0)) := by
  obtain ⟨k, hk⟩ : ∃ k, walkBound = (k + 1) + (bs.map Blk.addr).length := by
    have hlen := h.length_lt
    rw [List.length_map]
    exact ⟨walkBound - bs.length - 1, by omega⟩
  have hseg : Lseg s.next s.firstBlock (bs.map Blk.addr) NULL := h.seg.1
  have hbody : ∀ a ∈ bs.map Blk.addr, ∀ x,
      releaseBody s (a, x) = .again (s.next a, releaseAcc s x a) := by
    intro a ha x
    obtain ⟨b, hb, rfl⟩ := List.mem_map.mp ha
    exact if_pos (h.addr_ne_null hb)
  unfold trailingFree
  rw [hk, loopN_lseg (NULL, 0) hseg hbody]
  exact loopN_leave rfl k

/-- The run of free blocks at the end of the list. -/
def trailing (bs : List Blk) : List Blk := bs.rtakeWhile Blk.free

/-- The blocks before that run. -/
def before (bs : List Blk) : List Blk := bs.rdropWhile Blk.free

/-- The bytes of a list of blocks, headers included. -/
def total (bs : List Blk) : Nat := (bs.map Blk.size).sum

@[simp] theorem total_append (l r : List Blk) : total (l ++ r) = total l + total r := by
  simp [total]

theorem total_singleton (b : Blk) : total [b] = b.size := by
  simp [total]

theorem before_append_trailing (bs : List Blk) : before bs ++ trailing bs = bs :=
  List.rdropWhile_append_rtakeWhile

theorem total_trailing_le (bs : List Blk) : total (trailing bs) ≤ total bs := by
  have hsplit := congrArg total (before_append_trailing bs)
  rw [total_append] at hsplit
  omega

/-- `first_free_block` is the LAST block of the run at the end of the list, `total_free` the size
    of the whole run. -/
theorem foldl_releaseAcc (hholds : ∀ b ∈ bs, Holds s b) (hsum : total bs < 2 ^ 64) :
    (bs.map Blk.addr).foldl (releaseAcc s) (NULL, 0) =
      (lastAddr (trailing bs), total (trailing bs)) := by
  induction bs using List.reverseRecOn with
  | nil => rfl
  | append_singleton l t ih =>
    rw [total_append, total_singleton] at hsum
    have ihl := ih (fun b hb => hholds b (by simp [hb])) (by omega)
    have hle := total_trailing_le l
    have ht := hholds t (by simp)
    rw [List.map_append, List.foldl_append, ihl]
    show (if (s.mem t.addr).free = true then (t.addr, addSz (total (trailing l)) (s.mem t.addr).size)
      else (NULL, 0)) = _
    rw [ht.1, ht.2]
    by_cases hfree : t.free = true
    · have hrun : trailing (l ++ [t]) = trailing l ++ [t] := List.rtakeWhile_concat_pos _ _ _ hfree
      rw [if_pos hfree, hrun, lastAddr_concat, total_append, total_singleton, addSz_eq (by omega)]
    · have hrun : trailing (l ++ [t]) = [] := List.rtakeWhile_concat_neg _ _ _ hfree
      rw [if_neg hfree, hrun]
      rfl

/-- What the loop of `release_resource_if_need` finds. -/
theorem trailingFree_run (h : TiledTo R hi s start bs) :
    trailingFree s = some (lastAddr (trailing bs), total (trailing bs)) := by
  have hsum := h.tiles.sum_le h.gap
  have hlt := h.hi_lt
  rw [trailingFree_eq h, foldl_releaseAcc h.seg.2]
  unfold total
  omega

theorem trailing_busy (h : ∀ t ∈ bs.getLast?, t.free = false) : trailing bs = [] := by
  rcases List.eq_nil_or_concat bs with rfl | ⟨l, t, rfl⟩
  · rfl
  · rw [List.concat_eq_append] at h ⊢
    exact List.rtakeWhile_concat_neg _ _ _ (by simp [h t (by simp)])

/-- On a tidy heap the run is the last block, if that is free. -/
theorem trailing_tidy (h : Sep (l ++ [t])) (ht : t.free = true) : trailing (l ++ [t]) = [t] := by
  have hl : trailing l = [] := by
    -- the block before a free one is not free
    refine trailing_busy fun p hp => ?_
    have hnot := (sep_append.mp h).2.2 p hp t rfl
    simpa [ht] using hnot
  have hrun : trailing (l ++ [t]) = trailing l ++ [t] := List.rtakeWhile_concat_pos _ _ _ ht
  rw [hrun, hl, List.nil_append]

/-- The store that takes the last block `t` off the list, once its `prev` is known. -/
def unlinkLast (s : Heap) (l : List Blk) (t : Blk) : Heap :=
  if t.addr = s.firstBlock then { s with firstBlock := NULL } else s.setNext (lastAddr l) NULL

theorem unlinkLast_seg (h : Listed s (l ++ [t])) :
    Seg (unlinkLast s l t) (unlinkLast s l t).firstBlock l NULL := by
  rcases List.eq_nil_or_concat l with rfl | ⟨l', p, rfl⟩
  · have hfirst : t.addr = s.firstBlock := (seg_cons.mp h.seg).1.symm
    unfold unlinkLast
    rw [if_pos hfirst]
    exact seg_nil.mpr rfl
  · rw [List.concat_eq_append] at h ⊢
    have hne : t.addr ≠ s.firstBlock := by
      have hmem : ∃ c ∈ l' ++ [p], s.firstBlock = c.addr := by
        cases l' with
        | nil => exact ⟨p, by simp, (seg_cons.mp h.seg).1⟩
        | cons c l' => exact ⟨c, by simp, (seg_cons.mp h.seg).1⟩
      obtain ⟨c, hc, hfc⟩ := hmem
      rw [hfc]
      exact (h.addr_ne (by simpa using hc)).symm
    unfold unlinkLast
    rw [if_neg hne, lastAddr_concat]
    have h' : Listed s (l' ++ p :: [t]) := by simpa using h
    obtain ⟨hl, hp, -⟩ := seg_mid.mp h'.seg
    refine seg_mid.mpr ⟨hl.congr fun c hc => ?_, ?_, ?_⟩
    · have hcp : c.addr ≠ p.addr := h'.addr_ne (by simp [hc])
      simp [hcp]
    · simpa [Holds] using hp
    · simp [Heap.next]

/-- Taking the last block off the list and moving the break to it, or leaving the break where
    it is when there may be room before it. -/
theorem Tidy.cutLast (brkOk : Bool) (h : Tidy R s start (l ++ [t]))
    (hroom : brkOk = false → ∀ x y, x ≤ y → R x y) :
    Tidy R (brkTo (unlinkLast s l t) brkOk t.addr) start l ∧
      (brkTo (unlinkLast s l t) brkOk t.addr).brk = (if brkOk then t.addr else s.brk) ∧
      ∀ a, (brkTo (unlinkLast s l t) brkOk t.addr).prev a = s.prev a := by
  have hbrk : (unlinkLast s l t).brk = s.brk := by
    unfold unlinkLast
    split <;> rfl
  have hprev : ∀ a, (unlinkLast s l t).prev a = s.prev a := by
    intro a
    unfold unlinkLast
    split <;> simp [Heap.prev]
  have htiles : Tiles R Blk.addr Blk.size start l t.addr := (tiles_mid.mp h.tiles).1
  have hlt := h.addr_lt_hi (b := t) (by simp)
  have hbrklt := h.hi_lt
  have hpos : ∀ b ∈ l, 0 < b.size := fun b hb => h.pos b (by simp [hb])
  have hbig : ∀ b ∈ l, HEADER_SIZE < b.size := fun b hb => h.big b (by simp [hb])
  have hsep : Sep l := (sep_append.mp h.sep).1
  cases brkOk with
  | true =>
    refine ⟨⟨⟨h.gap, unlinkLast_seg h.laid.toListed, htiles, hpos, h.start_pos, ?_⟩, hbig, hsep⟩,
      rfl, hprev⟩
    show t.addr < 2 ^ 64
    omega
  | false =>
    have hwide : Tiles R Blk.addr Blk.size start l s.brk := by
      have := (tiles_append (r := []) h.gap).mpr
        ⟨t.addr, htiles, hroom rfl t.addr s.brk (Nat.le_of_lt hlt)⟩
      rwa [List.append_nil] at this
    refine ⟨⟨⟨h.gap, unlinkLast_seg h.laid.toListed, ?_, hpos, h.start_pos, ?_⟩, hbig, hsep⟩,
      hbrk, hprev⟩
    · show Tiles R Blk.addr Blk.size start l (unlinkLast s l t).brk
      rw [hbrk]
      exact hwide
    · show (unlinkLast s l t).brk < 2 ^ 64
      rw [hbrk]
      exact hbrklt

theorem Page.memDealloc_pos (pg : Page) : 0 < pg.memDeallocSize := by
  have := pg.big
  show 0 < 4 * pg.size
  omega

/-- Nothing is released below the threshold. -/
theorem release_skip {pg : Page} {brkOk : Bool} {x y : Nat} (htf : trailingFree s = some (x, y))
    (hy : y < pg.memDeallocSize) : releaseResourceIfNeed pg brkOk s = some s := by
  unfold releaseResourceIfNeed
  rw [htf]
  show some (if y < pg.memDeallocSize then s else _) = _
  rw [if_pos hy]

/-- Above it the last block goes; its `prev` is followed to do so. -/
theorem release_cut {pg : Page} {brkOk : Bool} {y : Nat} (htf : trailingFree s = some (t.addr, y))
    (hge : pg.memDeallocSize ≤ y) (hprev : s.prev t.addr = lastAddr l) :
    releaseResourceIfNeed pg brkOk s = some (brkTo (unlinkLast s l t) brkOk t.addr) := by
  have hprev' : (s.mem t.addr).prev = lastAddr l := hprev
  unfold releaseResourceIfNeed
  rw [htf]
  show some (if y < pg.memDeallocSize then s else
    brkTo (if t.addr = s.firstBlock then { s with firstBlock := NULL }
      else s.setNext (s.mem t.addr).prev NULL) brkOk t.addr) = _
  rw [if_neg (Nat.not_lt.mpr hge), hprev']
  rfl

/-- **`release_resource_if_need`** on a tidy heap: either the list does not end in a free block
    of `MEM_DEALLOC_SIZE` bytes or more and nothing happens, or it does and exactly that block
    goes, and with it the break, if the kernel takes it. -/
theorem Tidy.release (pg : Page) (brkOk : Bool) (h : Tidy R s start bs) (hlink : FreeLinked s bs)
    (hroom : brkOk = false → ∀ x y, x ≤ y → R x y) :
    ((∀ l t, bs = l ++ [t] → t.free = true → t.size < pg.memDeallocSize) ∧
        releaseResourceIfNeed pg brkOk s = some s) ∨
      ∃ l t s', bs = l ++ [t] ∧ t.free = true ∧ pg.memDeallocSize ≤ t.size ∧
        releaseResourceIfNeed pg brkOk s = some s' ∧ Tidy R s' start l ∧ FreeLinked s' l ∧
        s'.brk = if brkOk then t.addr else s.brk := by
  have hrun := trailingFree_run h.toTiledTo
  rcases last_free_or bs with ⟨l, t, rfl, ht⟩ | hbusy
  · have htf : trailingFree s = some (t.addr, t.size) := by
      rw [hrun, trailing_tidy h.sep ht, total_singleton]
      rfl
    rcases Nat.lt_or_ge t.size pg.memDeallocSize with hlt | hge
    · refine Or.inl ⟨fun l₂ t₂ heq _ => ?_, release_skip htf hlt⟩
      have ht₂ : t = t₂ := List.singleton_inj.mp (List.append_inj' heq rfl).2
      rw [← ht₂]
      exact hlt
    · obtain ⟨hlinkl, hprev⟩ := linked_concat.mp hlink
      obtain ⟨htidy, hbrk, hprevs⟩ := h.cutLast brkOk hroom
      refine Or.inr ⟨l, t, _, rfl, ht, hge, release_cut htf hge (hprev ht), htidy, ?_, hbrk⟩
      exact hlinkl.congr fun c _ _ => hprevs c.addr
  · rw [trailing_busy hbusy] at hrun
    refine Or.inl ⟨fun l t heq ht => ?_, release_skip hrun pg.memDealloc_pos⟩
    rw [hbusy t (by rw [heq]; simp)] at ht
    nomatch ht

end LinuxInterface.Malloc
