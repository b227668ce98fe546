/-
  The list operations one by one, on lists that need not be tidy.

  1. **Links** — `NextPrev`: the successor of every block has that block as its `prev`.  Seen on the
     addresses of the list it is a chain (`nextPrev_iff`).

  2. **`resize_block`** — inserts the new block into the list, and sets three of the four links that
     this takes.  The `prev` of the block behind stays, so the list is doubly linked afterwards
     exactly when there was nothing to insert or there is no block behind.

  3. **`free_and_merge`** — the first half repairs the `prev` of the block behind the one it takes
     out, the second half does not.  The `prev` of the first block is read when that block is freed
     and at no other time, so it need not be `NULL` otherwise.

  4. **`release_resource_if_need`** — adds up the run of free blocks at the end of the list, and
     gives back the LAST block of it.
-/
import LinuxInterface.Ch07.FreeSpec

namespace LinuxInterface.Malloc

open LinuxInterface

variable {s s' : Heap} {start m : Nat} {l r bs : List Blk} {b n : Blk} {pg : Page}

/-! ## Links -/

/-- Every block of the list with a successor is the `prev` of that. -/
def NextPrev (s : Heap) : Prop :=
  ∀ a, OnList s.next NULL s.firstBlock a → s.next a ≠ NULL → s.prev (s.next a) = a

/-- The `prev` of each address but the first is the address before it. -/
def PrevChain (s : Heap) (as : List Nat) : Prop := as.IsChain fun a c => s.prev c = a

theorem nextPrev_iff (h : Listed s bs) : NextPrev s ↔ PrevChain s (bs.map Blk.addr) := by
  unfold PrevChain
  rw [List.isChain_map, List.isChain_iff_forall_rel_of_append_cons_cons]
  constructor
  · -- two neighbours on the list: the first one has a successor, which is the second
    intro hnp b c l r hcut
    subst hcut
    have hon := h.onList_iff.mpr ⟨b, by simp, rfl⟩
    have hnext := h.next_eq
    have hprev := hnp b.addr hon (by rw [hnext]; exact h.ne_null c (by simp))
    rwa [hnext] at hprev
  · intro hall a hon hne
    obtain ⟨b, hb, rfl⟩ := h.onList_iff.mp hon
    obtain ⟨l, r, rfl⟩ := List.append_of_mem hb
    cases r with
    | nil => exact absurd h.next_last hne
    | cons c r =>
      rw [h.next_eq]
      exact hall rfl

/-- A chain reads the `prev` of its addresses but the first, and of no others. -/
theorem PrevChain.congr {as : List Nat} (h : PrevChain s as)
    (hsame : ∀ a ∈ as.tail, s'.prev a = s.prev a) : PrevChain s' as := by
  unfold PrevChain at *
  rw [List.isChain_iff_forall_rel_of_append_cons_cons] at *
  intro a c l r hcut
  have hc : c ∈ as.tail := by
    rw [hcut]
    cases l <;> simp
  rw [hsame c hc]
  exact h hcut

/-- A new address behind `a` that has `a` as its `prev`: the one behind it, if there is one, has `a`
    as well and should have the new one. -/
theorem PrevChain.insert_iff {as cs : List Nat} {a new : Nat} (h : PrevChain s (as ++ a :: cs))
    (hsame : ∀ c ∈ as ++ a :: cs, s'.prev c = s.prev c) (hnew : s'.prev new = a) (hne : a ≠ new) :
    PrevChain s' (as ++ a :: new :: cs) ↔ cs = [] := by
  constructor
  · intro h'
    cases cs with
    | nil => rfl
    | cons d cs =>
      have hd : s.prev d = a := (List.isChain_append_cons_cons.mp h).2.1
      have hd' : s'.prev d = new :=
        (List.isChain_cons_cons.mp (List.isChain_append_cons_cons.mp h').2.2).1
      rw [hsame d (by simp), hd] at hd'
      exact absurd hd' hne
  · rintro rfl
    have hold := h.congr fun c hc => hsame c (List.mem_of_mem_tail hc)
    exact List.isChain_append_cons_cons.mpr ⟨hold, hnew, List.isChain_singleton _⟩

/-- An address taken out from behind `a`: the one behind it, if there is one, still has it. -/
theorem PrevChain.remove_iff {as cs : List Nat} {a gone : Nat}
    (h : PrevChain s (as ++ a :: gone :: cs)) (hne : a ≠ gone) :
    PrevChain s (as ++ a :: cs) ↔ cs = [] := by
  obtain ⟨hleft, -, hright⟩ := List.isChain_append_cons_cons.mp h
  constructor
  · intro h'
    cases cs with
    | nil => rfl
    | cons d cs =>
      have hd : s.prev d = gone := (List.isChain_cons_cons.mp hright).1
      have hd' : s.prev d = a := (List.isChain_append_cons_cons.mp h').2.1
      exact absurd (hd'.symm.trans hd) hne
  · rintro rfl
    exact hleft

/-- An address taken out from behind `a`, and the one behind it made to have `a`. -/
theorem PrevChain.join {as cs : List Nat} {a gone : Nat} (h : PrevChain s (as ++ a :: gone :: cs))
    (hleft : ∀ c ∈ as ++ [a], s'.prev c = s.prev c) (hnext : ∀ d ∈ cs.head?, s'.prev d = a)
    (hright : ∀ c ∈ cs.tail, s'.prev c = s.prev c) : PrevChain s' (as ++ a :: cs) := by
  obtain ⟨hl, -, hr⟩ := List.isChain_append_cons_cons.mp h
  have hl' : PrevChain s' (as ++ [a]) :=
    PrevChain.congr hl fun c hc => hleft c (List.mem_of_mem_tail hc)
  cases cs with
  | nil => exact hl'
  | cons d cs =>
    have hr' : PrevChain s (d :: cs) := (List.isChain_cons_cons.mp hr).2
    exact List.isChain_append_cons_cons.mpr ⟨hl', hnext d rfl, hr'.congr hright⟩

/-! ## `resize_block` -/

/-- What it does to the back links. -/
theorem resizeBlock_prev (h : Laid s (l ++ b :: r)) (hm : m ≤ b.size)
    (hcut : ¬ b.size - m ≤ HEADER_SIZE) (a : Nat) :
    (resizeBlock s b.addr m).prev a = if a = b.addr + m then b.addr else s.prev a := by
  rw [resizeBlock_cut h hm hcut]
  simp [Heap.prev]

theorem resizeBlock_prev_same (h : Laid s (l ++ b :: r)) (hm0 : 0 < m) (hm : m ≤ b.size)
    (hcut : ¬ b.size - m ≤ HEADER_SIZE) :
    ∀ a ∈ (l ++ b :: r).map Blk.addr, (resizeBlock s b.addr m).prev a = s.prev a := by
  intro a ha
  obtain ⟨c, hc, rfl⟩ := List.mem_map.mp ha
  rw [resizeBlock_prev h hm hcut, if_neg]
  by_cases hcb : c = b
  · subst hcb
    omega
  · have hout : c ∈ l ++ r := by
      rcases List.mem_append.mp hc with hc | hc
      · exact List.mem_append_left r hc
      · exact List.mem_append_right l ((List.mem_cons.mp hc).resolve_left hcb)
    rw [headerSize_eq] at hcut
    rcases h.addr_outside hout with hle | hle <;> omega

/-- The two pieces make up the block. -/
theorem total_cut (hm : m ≤ b.size) : total (cut b m) = b.size := by
  unfold cut
  split
  · exact total_singleton b
  · show m + (b.size - m + 0) = b.size
    omega

/-- **`resize_block`** on a doubly linked list.  The list through `next` becomes the old one with
    the block cut in two, if it is cut at all; but it is doubly linked again if and only if the
    block was not cut or was the last one. -/
theorem resizeBlock_nextPrev_iff (h : Laid s (l ++ b :: r)) (hlinks : NextPrev s)
    (hm0 : HEADER_SIZE < m) (hm : m ≤ b.size) :
    Listed (resizeBlock s b.addr m) (l ++ (cut b m ++ r)) ∧ total (cut b m) = b.size ∧
      (NextPrev (resizeBlock s b.addr m) ↔ b.size - m ≤ HEADER_SIZE ∨ r = []) := by
  have hpos : 0 < m := Nat.lt_of_le_of_lt (Nat.zero_le _) hm0
  have hlist := h.cut hpos hm
  refine ⟨hlist, total_cut hm, ?_⟩
  by_cases hkeep : b.size - m ≤ HEADER_SIZE
  · rw [resizeBlock_keep h hm hkeep]
    exact ⟨fun _ => Or.inl hkeep, fun _ => hlinks⟩
  · -- the addresses are the old ones and, behind that of `b`, that of the new block
    have hold := (nextPrev_iff h.toListed).mp hlinks
    have hsame := resizeBlock_prev_same h hpos hm hkeep
    have hnew : (resizeBlock s b.addr m).prev (b.addr + m) = b.addr := by
      rw [resizeBlock_prev h hm hkeep, if_pos rfl]
    rw [List.map_append, List.map_cons] at hold hsame
    rw [nextPrev_iff hlist, cut, if_neg hkeep]
    simp only [List.map_append, List.map_cons, List.cons_append, List.nil_append]
    rw [hold.insert_iff hsame hnew (by omega), List.map_eq_nil_iff]
    exact ⟨Or.inr, fun hor => hor.resolve_left hkeep⟩

/-- Two blocks, at 4096 and 4296. -/
def pair : Heap where
  firstBlock := 4096
  mem := fun a => if a = 4096 then ⟨200, false, NULL, 4296⟩ else ⟨200, true, 4096, NULL⟩
  brk := 4496
  errno := .none

theorem pair_laid : Laid pair [⟨4096, 200, false⟩, ⟨4296, 200, true⟩] where
  seg := by simp [seg_cons, Holds, Heap.next, pair]
  ne_null := by decide
  apart := by decide
  top := by decide

theorem pair_nextPrev : NextPrev pair :=
  (nextPrev_iff pair_laid.toListed).mpr (by simp [PrevChain, Heap.prev, pair])

/-- Cutting the last block keeps the list doubly linked. -/
theorem resizeBlock_nextPrev_last : NextPrev (resizeBlock pair 4296 100) := by
  have h : Laid pair ([⟨4096, 200, false⟩] ++ ⟨4296, 200, true⟩ :: []) := pair_laid
  exact (resizeBlock_nextPrev_iff h pair_nextPrev (by decide) (by decide)).2.2.mpr (Or.inr rfl)

/-- **Cutting the first one does not**: the new block is at 4196, and the block behind it, at
    4296, has 4096 as its `prev`. -/
theorem resizeBlock_breaks_links : Laid pair [⟨4096, 200, false⟩, ⟨4296, 200, true⟩] ∧
    NextPrev pair ∧ pair.prev pair.firstBlock = NULL ∧
    ¬ NextPrev (resizeBlock pair 4096 100) := by
  refine ⟨pair_laid, pair_nextPrev, rfl, fun hnp => ?_⟩
  have hon : OnList (resizeBlock pair 4096 100).next NULL (resizeBlock pair 4096 100).firstBlock
      4196 := by
    have hnext : (resizeBlock pair 4096 100).next 4096 = 4196 := by decide
    rw [← hnext]
    exact OnList.next (OnList.head (by decide)) (by decide)
  exact absurd (hnp 4196 hon (by decide)) (by decide)

/-! ## `free_and_merge` -/

/-- The first test of `free_and_merge`: the block has a `prev`, and that is marked free once the
    block itself is. -/
def JoinsPrev (s : Heap) (block : Nat) : Prop :=
  s.prev block ≠ NULL ∧ ((s.setFree block true).mem (s.prev block)).free = true

/-- The first block of a list has no left neighbour on it.  If it is joined to what its `prev` names
    all the same, the list comes to no harm when the block is alone on it; or, if the `prev` is the
    block itself, when adding its size to it changes nothing. -/
def Harmless (s : Heap) (b : Blk) (r : List Blk) : Prop :=
  if s.prev b.addr = b.addr then b.size = 0 else r = []

@[simp] theorem setFree_prev (a c : Nat) (v : Bool) : (s.setFree a v).prev c = s.prev c := by
  simp [Heap.prev]

/-- The list after the first half: the block is joined to its free left neighbour, and the links are
    exact. -/
def LeftDone (s s₂ : Heap) (l : List Blk) (b : Blk) (r : List Blk) : Prop :=
  mergePrev (s.setFree b.addr true) b.addr = (s₂, (absorbLeft l { b with free := true }).2.addr) ∧
    Listed s₂ ((absorbLeft l { b with free := true }).1 ++
      (absorbLeft l { b with free := true }).2 :: r) ∧
    PrevChain s₂ (((absorbLeft l { b with free := true }).1 ++
      (absorbLeft l { b with free := true }).2 :: r).map Blk.addr)

/-- Joining a free left neighbour. -/
theorem leftDone_join {p : Blk} (h : Laid s (l ++ p :: b :: r)) (hlinks : NextPrev s)
    (hp : p.free = true) (hfit : p.size + b.size < 2 ^ 64) :
    LeftDone s (joinPrev (s.setFree b.addr true) p { b with free := true }) (l ++ [p]) b r := by
  have hchain := (nextPrev_iff h.toListed).mp hlinks
  rw [List.map_append, List.map_cons, List.map_cons] at hchain
  have h₀ : Listed s ((l ++ [p]) ++ b :: r) := by simpa using h.toListed
  have h₁ := h₀.setFree true
  have h₁' : Listed (s.setFree b.addr true) (l ++ p :: { b with free := true } :: r) := by
    simpa using h₁
  have hprev : (s.setFree b.addr true).prev b.addr = p.addr := by
    rw [setFree_prev]
    exact (List.isChain_append_cons_cons.mp hchain).2.1
  have hchain₁ : PrevChain (s.setFree b.addr true)
      (l.map Blk.addr ++ p.addr :: b.addr :: r.map Blk.addr) :=
    hchain.congr fun a _ => setFree_prev _ _ _
  unfold LeftDone
  rw [absorbLeft_free _ _ hp]
  refine ⟨mergePrev_eq (b := { b with free := true }) h₁' hfit hp hprev, h₁'.joinPrev, ?_⟩
  rw [List.map_append, List.map_cons]
  refine hchain₁.join (fun a ha => ?_) (fun a ha => ?_) fun a ha => ?_
  · -- the successor of `b`, whose `prev` is written, is none of the blocks left of it
    have hmem : a ∈ (l ++ [p]).map Blk.addr := by simpa using ha
    obtain ⟨c, hc, rfl⟩ := List.mem_map.mp hmem
    exact joinPrev_prev_same (h₁.next_ne_left hc)
  · cases r with
    | nil => nomatch ha
    | cons d r =>
      obtain rfl : d.addr = a := Option.some.inj ha
      have hnext : (s.setFree b.addr true).next b.addr = d.addr := h₁.next_eq
      rw [joinPrev_prev_eq]
      exact if_pos ⟨by rw [hnext]; exact h₁.ne_null d (by simp), hnext.symm⟩
  · cases r with
    | nil => nomatch ha
    | cons d r =>
      obtain ⟨c, hc, rfl⟩ := List.mem_map.mp ha
      have hnext : (s.setFree b.addr true).next b.addr = d.addr := h₁.next_eq
      have h₂ : Listed (s.setFree b.addr true)
          ((l ++ [p, { b with free := true }]) ++ d :: r) := by simpa using h₁
      refine joinPrev_prev_same ?_
      show c.addr ≠ (s.setFree b.addr true).next b.addr
      rw [hnext]
      exact h₂.addr_ne (by simp [hc])

/-- Nothing to join on the left. -/
theorem leftDone_skip (h : Laid s (l ++ b :: r)) (hlinks : NextPrev s)
    (hlast : ∀ p ∈ l.getLast?, p.free = false)
    (hskip : mergePrev (s.setFree b.addr true) b.addr = (s.setFree b.addr true, b.addr)) :
    LeftDone s (s.setFree b.addr true) l b r := by
  have hchain := (nextPrev_iff h.toListed).mp hlinks
  unfold LeftDone
  rw [absorbLeft_busy _ hlast]
  refine ⟨hskip, h.toListed.setFree true, ?_⟩
  rw [List.map_append, List.map_cons] at hchain ⊢
  exact hchain.congr fun a _ => setFree_prev _ _ _

/-- Where the first half is right: on any block but the first, and on the first if it is not joined
    to anything. -/
theorem leftDone_of_links (h : Laid s (l ++ b :: r)) (hlinks : NextPrev s)
    (hfirst : l = [] → ¬ JoinsPrev s b.addr) : ∃ s₂, LeftDone s s₂ l b r := by
  rcases last_free_or l with ⟨l', p, rfl, hp⟩ | hlast
  · have hfit := h.freed_sizes.1 p (by simp)
    exact ⟨_, leftDone_join (by simpa using h) hlinks hp hfit⟩
  · refine ⟨_, leftDone_skip h hlinks hlast ?_⟩
    rcases List.eq_nil_or_concat l with rfl | ⟨l', p, rfl⟩
    · exact if_neg fun hcond => hfirst rfl (by simpa [JoinsPrev, Heap.prev] using hcond)
    · rw [List.concat_eq_append] at h hlast
      have hchain := (nextPrev_iff h.toListed).mp hlinks
      rw [List.append_assoc, List.map_append] at hchain
      have hprev : s.prev b.addr = p.addr := (List.isChain_append_cons_cons.mp hchain).2.1
      have hmark : (s.setFree b.addr true).prev b.addr = lastAddr (l' ++ [p]) := by
        rw [lastAddr_concat, setFree_prev]
        exact hprev
      exact mergePrev_skip (b := { b with free := true }) (h.toListed.setFree true) hmark hlast

/-- The second half, after the first: the list is right, and the links are exact again if and only if
    the neighbour on the right is not a free block with another one behind it. -/
theorem LeftDone.freeAndMerge {s₂ : Heap} (h : Laid s (l ++ b :: r)) (hdone : LeftDone s s₂ l b r) :
    Listed (freeAndMerge s b.addr) (freed l b r) ∧
      (NextPrev (Malloc.freeAndMerge s b.addr) ↔
        ∀ n r', r = n :: r' → n.free = true → r' = []) := by
  obtain ⟨heq₂, h₂, hchain₂⟩ := hdone
  obtain ⟨hlist, -, hprev₃⟩ := h₂.mergeNext h.freed_sizes.2
  have heq : Malloc.freeAndMerge s b.addr =
      mergeNext s₂ (absorbLeft l { b with free := true }).2.addr := by
    unfold Malloc.freeAndMerge
    rw [heq₂]
  rw [heq]
  refine ⟨hlist, ?_⟩
  -- the links are exact on the list in which the right neighbour has not been joined yet
  have hchain := hchain₂.congr fun a _ => hprev₃ a
  rw [nextPrev_iff hlist]
  rcases head_free_or r with ⟨n, r, rfl, hn⟩ | hr
  · rw [absorbRight_free _ r hn, List.map_append, List.map_cons]
    rw [List.map_append, List.map_cons, List.map_cons] at hchain
    have h₂' : Listed s₂ ((absorbLeft l { b with free := true }).1 ++
      (absorbLeft l { b with free := true }).2 :: n :: r) := h₂
    rw [PrevChain.remove_iff hchain (h₂'.addr_ne (by simp)).symm, List.map_eq_nil_iff]
    constructor
    · rintro hnil n' r' heq -
      rw [← (List.cons.inj heq).2, hnil]
    · exact fun hlast => hlast n r rfl hn
  · rw [absorbRight_busy _ hr]
    refine ⟨fun _ n r' heq hfree => ?_, fun _ => hchain⟩
    rw [heq] at hr
    rw [hr n rfl] at hfree
    nomatch hfree

/-! ### A first block with a `prev` -/

theorem freeAndMerge_eq (s : Heap) (block : Nat) : freeAndMerge s block =
    mergeNext (mergePrev (s.setFree block true) block).1
      (mergePrev (s.setFree block true) block).2 := rfl

theorem mergeNext_firstBlock (s : Heap) (block : Nat) :
    (mergeNext s block).firstBlock = s.firstBlock := by
  unfold mergeNext
  split <;> rfl

theorem mergePrev_firstBlock (s : Heap) (block : Nat) :
    (mergePrev s block).1.firstBlock = s.firstBlock := by
  unfold mergePrev
  split
  · dsimp only
    split <;> rfl
  · rfl

/-- `first_block` is not written. -/
theorem freeAndMerge_firstBlock (s : Heap) (block : Nat) :
    (freeAndMerge s block).firstBlock = s.firstBlock := by
  rw [freeAndMerge_eq, mergeNext_firstBlock, mergePrev_firstBlock]
  rfl

/-- The second half writes no `prev`, and no `next` but that of its block. -/
theorem mergeNext_links (s : Heap) (block a : Nat) : (mergeNext s block).prev a = s.prev a ∧
    (a ≠ block → (mergeNext s block).next a = s.next a) := by
  unfold mergeNext
  split
  · refine ⟨by simp [Heap.prev], fun ha => by simp [Heap.next, ha]⟩
  · exact ⟨rfl, fun _ => rfl⟩

/-- The first half on a block that is joined to another one: the block's `next` stays, and what that
    names gets the block's `prev`. -/
theorem mergePrev_stray {block : Nat} (hj : JoinsPrev s block) (hp : s.prev block ≠ block)
    (hn : s.next block ≠ NULL) (hnb : s.next block ≠ block) :
    (mergePrev (s.setFree block true) block).2 = s.prev block ∧
      (mergePrev (s.setFree block true) block).1.next block = s.next block ∧
      (mergePrev (s.setFree block true) block).1.prev (s.next block) = s.prev block := by
  have hcond : ((s.setFree block true).mem block).prev ≠ NULL ∧
      ((s.setFree block true).mem ((s.setFree block true).mem block).prev).free = true := by
    simpa [JoinsPrev, Heap.prev] using hj
  have hp' : block ≠ (s.mem block).prev := fun h => hp h.symm
  have hn' : (s.mem block).next ≠ 0 := hn
  have hnb' : block ≠ (s.mem block).next := fun h => hnb h.symm
  unfold mergePrev
  rw [if_pos hcond]
  simp [Heap.prev, Heap.next, hp', hn', hnb']

/-- So if there is a block behind it, the links are wrong afterwards: the block is still on the list
    and is not the `prev` of its successor. -/
theorem not_nextPrev_stray (h : Laid s (b :: n :: r)) (hj : JoinsPrev s b.addr)
    (hp : s.prev b.addr ≠ b.addr) : ¬ NextPrev (freeAndMerge s b.addr) := by
  intro hnp
  have h' : Listed s ([] ++ b :: n :: r) := h.toListed
  have hnext : s.next b.addr = n.addr := h'.next_eq
  have hn0 : s.next b.addr ≠ NULL := by
    rw [hnext]
    exact h.ne_null n (by simp)
  have hnb : s.next b.addr ≠ b.addr := by
    rw [hnext]
    exact h'.addr_ne (by simp)
  obtain ⟨hblock, hnext₂, hprev₂⟩ := mergePrev_stray hj hp hn0 hnb
  have hother : b.addr ≠ (mergePrev (s.setFree b.addr true) b.addr).2 := by
    rw [hblock]
    exact fun heq => hp heq.symm
  have hnext₃ : (freeAndMerge s b.addr).next b.addr = s.next b.addr :=
    ((mergeNext_links _ _ _).2 hother).trans hnext₂
  have hprev₃ : (freeAndMerge s b.addr).prev (s.next b.addr) = s.prev b.addr :=
    (mergeNext_links _ _ _).1.trans hprev₂
  have hon : OnList (freeAndMerge s b.addr).next NULL (freeAndMerge s b.addr).firstBlock b.addr := by
    rw [freeAndMerge_firstBlock, (seg_cons.mp h.seg).1]
    exact OnList.head (h.ne_null b (by simp))
  have hback := hnp b.addr hon (by rw [hnext₃]; exact hn0)
  rw [hnext₃, hprev₃] at hback
  exact hp hback

/-- Alone on the list, the block comes out as it should: what is written is in the other block. -/
theorem freeAndMerge_alone (h : Laid s [b]) (hj : JoinsPrev s b.addr)
    (hp : s.prev b.addr ≠ b.addr) :
    Listed (freeAndMerge s b.addr) (freed [] b []) ∧ NextPrev (freeAndMerge s b.addr) := by
  have h' : Listed s ([] ++ b :: []) := h.toListed
  have hnext : (s.mem b.addr).next = NULL := h'.next_last
  have hcond : ((s.setFree b.addr true).mem b.addr).prev ≠ NULL ∧
      ((s.setFree b.addr true).mem ((s.setFree b.addr true).mem b.addr).prev).free = true := by
    simpa [JoinsPrev, Heap.prev] using hj
  have hp' : b.addr ≠ (s.mem b.addr).prev := fun heq => hp heq.symm
  have hout : ∀ c ∈ [{ b with free := true }], ((freeAndMerge s b.addr).mem c.addr).size =
        ((s.setFree b.addr true).mem c.addr).size ∧
      ((freeAndMerge s b.addr).mem c.addr).free = ((s.setFree b.addr true).mem c.addr).free ∧
      ((freeAndMerge s b.addr).mem c.addr).next = ((s.setFree b.addr true).mem c.addr).next := by
    intro c hc
    rw [List.mem_singleton.mp hc, freeAndMerge_eq, mergePrev, if_pos hcond]
    simp [mergeNext, hp', hnext]
  have hlist : Listed (freeAndMerge s b.addr) (freed [] b []) := by
    refine ⟨?_, (h'.setFree true).ne_null⟩
    rw [freeAndMerge_firstBlock]
    exact (h'.setFree true).seg.congr hout
  exact ⟨hlist, (nextPrev_iff hlist).mpr (List.isChain_singleton _)⟩

/-- Storing what is there already. -/
theorem modify_same {a : Nat} {f : MBlock → MBlock} (h : f (s.mem a) = s.mem a) :
    s.modify a f = s := by
  unfold Heap.modify
  rw [h, Function.update_eq_self]

/-- A block that is its own `prev` is joined to itself: its size is added to it. -/
theorem mergePrev_self {block : Nat} (hself : s.prev block = block) (hne : block ≠ NULL)
    (hfree : (s.mem block).free = true)
    (hback : s.next block ≠ NULL → s.prev (s.next block) = block) :
    mergePrev s block =
      (s.setSize block (addSz (s.mem block).size (s.mem block).size), block) := by
  have hself' : (s.mem block).prev = block := hself
  unfold mergePrev
  rw [hself', if_pos ⟨hne, hfree⟩]
  have hnext : ∀ v, (s.setSize block v).setNext block ((s.setSize block v).mem block).next =
      s.setSize block v := fun v => modify_same rfl
  have hprev : ∀ v, ((s.setSize block v).mem block).prev = block := fun v => by simp [hself']
  dsimp only
  rw [hprev, hnext]
  by_cases hn : s.next block = NULL
  · have hn' : ¬ ((s.setSize block (addSz (s.mem block).size (s.mem block).size)).mem
        block).next ≠ NULL := by simpa [Heap.next] using hn
    rw [if_neg hn', hprev]
  · have hn' : ((s.setSize block (addSz (s.mem block).size (s.mem block).size)).mem
        block).next ≠ NULL := by simpa [Heap.next] using hn
    have hsame : (s.setSize block (addSz (s.mem block).size (s.mem block).size)).setPrev
        ((s.setSize block (addSz (s.mem block).size (s.mem block).size)).mem block).next block =
          s.setSize block (addSz (s.mem block).size (s.mem block).size) := by
      refine modify_same ?_
      have hb : (s.mem (s.mem block).next).prev = block := hback hn
      simp [hb]
    rw [if_pos hn', hprev, hsame, hprev]

/-- The first block of a doubly linked list, freed with itself as its `prev`. -/
theorem mergePrev_first_self (h : Laid s (b :: r)) (hlinks : NextPrev s)
    (hself : s.prev b.addr = b.addr) : mergePrev (s.setFree b.addr true) b.addr =
      ((s.setFree b.addr true).setSize b.addr (addSz b.size b.size), b.addr) := by
  have hne := h.ne_null b (by simp)
  have hsize : ((s.setFree b.addr true).mem b.addr).size = b.size := by
    simpa using (h.seg.2 b (by simp)).1
  have hback : (s.setFree b.addr true).next b.addr ≠ NULL →
      (s.setFree b.addr true).prev ((s.setFree b.addr true).next b.addr) = b.addr := by
    have hon := h.toListed.onList_iff.mpr ⟨b, by simp, rfl⟩
    simpa [Heap.next] using hlinks b.addr hon
  have heq := mergePrev_self ((setFree_prev _ _ _).trans hself) hne (by simp) hback
  rwa [hsize] at heq

theorem mergeNext_size (s : Heap) (block : Nat) : ((mergeNext s block).mem block).size =
    if (s.mem block).next ≠ NULL ∧ (s.mem (s.mem block).next).free = true then
      addSz (s.mem block).size (s.mem (s.mem block).next).size else (s.mem block).size := by
  unfold mergeNext
  split <;> simp

/-- The joined block has the size it should have only if it has none. -/
theorem size_of_self (h : Laid s (b :: r)) (hlinks : NextPrev s)
    (hself : s.prev b.addr = b.addr) (hlist : Listed (freeAndMerge s b.addr) (freed [] b r)) :
    b.size = 0 := by
  have hbtop := h.top b (by simp)
  have hb0 : b.addr ≠ 0 := h.ne_null b (by simp)
  have hfit := (Laid.freed_sizes (l := []) h).2
  have h₁ : Listed s ([] ++ b :: r) := h.toListed
  have hsize := mergeNext_size ((s.setFree b.addr true).setSize b.addr (addSz b.size b.size)) b.addr
  have heq : freeAndMerge s b.addr = mergeNext
      ((s.setFree b.addr true).setSize b.addr (addSz b.size b.size)) b.addr := by
    rw [freeAndMerge_eq, mergePrev_first_self h hlinks hself]
  rw [← heq] at hsize
  cases r with
  | nil =>
    have hnext : (s.mem b.addr).next = 0 := h₁.next_last
    have hhead : ((freeAndMerge s b.addr).mem b.addr).size = b.size :=
      (hlist.seg.2 _ (List.mem_singleton.mpr rfl)).1
    rw [hhead] at hsize
    simp [hnext, addSz] at hsize
    omega
  | cons n r =>
    have hnext : (s.mem b.addr).next = n.addr := h₁.next_eq
    have hn0 : n.addr ≠ 0 := h.ne_null n (by simp)
    have hnb : n.addr ≠ b.addr := h₁.addr_ne (by simp)
    have hn := h.seg.2 n (by simp)
    have hfit' : b.size + n.size < 2 ^ 64 := hfit n rfl
    cases hfree : n.free with
    | true =>
      have hmem : ({ b with size := b.size + n.size, free := true } : Blk) ∈ freed [] b (n :: r) := by
        show _ ∈ absorbRight { b with free := true } (n :: r)
        rw [absorbRight_free _ r hfree]
        exact List.mem_cons_self
      have hhead : ((freeAndMerge s b.addr).mem b.addr).size = b.size + n.size :=
        (hlist.seg.2 _ hmem).1
      rw [hhead] at hsize
      simp [hnext, hn0, hnb, hn.1, hn.2, hfree, addSz] at hsize
      omega
    | false =>
      have hmem : ({ b with free := true } : Blk) ∈ freed [] b (n :: r) := by
        show _ ∈ absorbRight { b with free := true } (n :: r)
        rw [absorbRight_busy _ (r := n :: r) (by simpa using hfree)]
        exact List.mem_cons_self
      have hhead : ((freeAndMerge s b.addr).mem b.addr).size = b.size := (hlist.seg.2 _ hmem).1
      rw [hhead] at hsize
      simp [hnext, hn0, hnb, hn.2, hfree, addSz] at hsize
      omega

/-- And if it has none, nothing has happened. -/
theorem leftDone_self (h : Laid s (b :: r)) (hlinks : NextPrev s) (hself : s.prev b.addr = b.addr)
    (hsize : b.size = 0) : LeftDone s (s.setFree b.addr true) [] b r := by
  refine leftDone_skip (l := []) h hlinks (fun p hp => nomatch hp) ?_
  rw [mergePrev_first_self h hlinks hself, hsize]
  have hholds := (h.seg.2 b (by simp)).1
  rw [hsize] at hholds
  have hsame : (s.setFree b.addr true).setSize b.addr (addSz 0 0) = s.setFree b.addr true :=
    modify_same (by simp [addSz, hholds])
  rw [hsame]

/-- **`free_and_merge`** on a doubly linked list.  Unless the block is the first and is joined to
    what its `prev` names, the list through `next` becomes the old one with the block joined to its
    free neighbours.  The list is that one and doubly linked again if and only if the neighbour on
    the right is not a free block with another one behind it, and such a joining of the first block
    does no harm. -/
theorem freeAndMerge_nextPrev_iff (h : Laid s (l ++ b :: r)) (hlinks : NextPrev s) :
    ((l = [] → ¬ JoinsPrev s b.addr) → Listed (freeAndMerge s b.addr) (freed l b r)) ∧
      (Listed (freeAndMerge s b.addr) (freed l b r) ∧ NextPrev (freeAndMerge s b.addr) ↔
        (∀ n r', r = n :: r' → n.free = true → r' = []) ∧
          (l = [] → JoinsPrev s b.addr → Harmless s b r)) := by
  by_cases hfirst : l = [] → ¬ JoinsPrev s b.addr
  · obtain ⟨s₂, hdone⟩ := leftDone_of_links h hlinks hfirst
    obtain ⟨hlist, hiff⟩ := hdone.freeAndMerge h
    refine ⟨fun _ => hlist, fun hok => ⟨hiff.mp hok.2, fun hl hj => absurd hj (hfirst hl)⟩,
      fun hok => ⟨hlist, hiff.mpr hok.1⟩⟩
  · refine ⟨fun hnot => absurd hnot hfirst, ?_⟩
    obtain ⟨rfl, hj⟩ : l = [] ∧ JoinsPrev s b.addr := by
      by_contra hnot
      exact hfirst fun hl hj => hnot ⟨hl, hj⟩
    rw [List.nil_append] at h
    by_cases hself : s.prev b.addr = b.addr
    · -- joined to itself
      have hharm : Harmless s b r ↔ b.size = 0 := by rw [Harmless, if_pos hself]
      rw [hharm]
      constructor
      · intro hok
        have hsize := size_of_self h hlinks hself hok.1
        have hiff := (leftDone_self h hlinks hself hsize).freeAndMerge h
        exact ⟨hiff.2.mp hok.2, fun _ _ => hsize⟩
      · intro hok
        have hiff := (leftDone_self h hlinks hself (hok.2 rfl hj)).freeAndMerge h
        exact ⟨hiff.1, hiff.2.mpr hok.1⟩
    · -- joined to a block that is not before it on the list
      have hharm : Harmless s b r ↔ r = [] := by rw [Harmless, if_neg hself]
      rw [hharm]
      cases r with
      | nil =>
        exact ⟨fun _ => ⟨fun n r' heq => (nomatch heq), fun _ _ => rfl⟩,
          fun _ => freeAndMerge_alone h hj hself⟩
      | cons n r =>
        exact ⟨fun hok => absurd hok.2 (not_nextPrev_stray h hj hself),
          fun hok => nomatch hok.2 rfl hj⟩

/-- Three blocks, the one in the middle free. -/
def triple : Heap where
  firstBlock := 4096
  mem := fun a => if a = 4096 then ⟨100, false, NULL, 4196⟩
    else if a = 4196 then ⟨100, true, 4096, 4296⟩ else ⟨100, false, 4196, NULL⟩
  brk := 4396
  errno := .none

theorem triple_laid :
    Laid triple [⟨4096, 100, false⟩, ⟨4196, 100, true⟩, ⟨4296, 100, false⟩] where
  seg := by simp [seg_cons, Holds, Heap.next, triple]
  ne_null := by decide
  apart := by decide
  top := by decide

theorem triple_nextPrev : NextPrev triple :=
  (nextPrev_iff triple_laid.toListed).mpr (by simp [PrevChain, Heap.prev, triple])

/-- Freeing the third block joins it to the second, and all is well. -/
theorem freeAndMerge_nextPrev_third : NextPrev (freeAndMerge triple 4296) := by
  have h : Laid triple ([⟨4096, 100, false⟩, ⟨4196, 100, true⟩] ++ ⟨4296, 100, false⟩ :: []) :=
    triple_laid
  refine ((freeAndMerge_nextPrev_iff h triple_nextPrev).2.mpr ⟨?_, ?_⟩).2
  · intro n r' heq
    nomatch heq
  · intro hl
    nomatch hl

/-- **Freeing the first block** joins the second to it, and the third keeps the second, which is
    gone, as its `prev`. -/
theorem freeAndMerge_breaks_links :
    Laid triple [⟨4096, 100, false⟩, ⟨4196, 100, true⟩, ⟨4296, 100, false⟩] ∧ NextPrev triple ∧
    triple.prev triple.firstBlock = NULL ∧ ¬ NextPrev (freeAndMerge triple 4096) := by
  refine ⟨triple_laid, triple_nextPrev, rfl, fun hnp => ?_⟩
  have hon : OnList (freeAndMerge triple 4096).next NULL (freeAndMerge triple 4096).firstBlock
      4096 := OnList.head (by decide)
  exact absurd (hnp 4096 hon (by decide)) (by decide)

/-! ## `release_resource_if_need` -/

/-- What `release_resource_if_need` is to do: when the run of free blocks at the end of the list
    has `MEM_DEALLOC_SIZE` bytes or more, lower the break by exactly these and leave the blocks
    before the run; else nothing. -/
def ReleasesRun (pg : Page) (s s' : Heap) (bs : List Blk) : Prop :=
  if pg.memDeallocSize ≤ total (trailing bs) then
    s'.brk + total (trailing bs) = s.brk ∧ Listed s' (before bs)
  else s'.brk = s.brk ∧ Listed s' bs

/-- A list of blocks with room in them has bytes. -/
theorem total_pos (hpos : ∀ c ∈ bs, 0 < c.size) (hne : bs ≠ []) : 0 < total bs := by
  cases bs with
  | nil => exact absurd rfl hne
  | cons c bs =>
    have hc := hpos c (by simp)
    show 0 < c.size + total bs
    omega

/-- A run without bytes is no run. -/
theorem trailing_eq_nil (hpos : ∀ c ∈ bs, 0 < c.size) (hzero : total (trailing bs) = 0) :
    trailing bs = [] := by
  by_contra hne
  have hrun : ∀ c ∈ trailing bs, 0 < c.size := fun c hc =>
    hpos c ((List.rtakeWhile_suffix _ _).mem hc)
  have := total_pos hrun hne
  omega

theorem before_eq_self (h : trailing bs = []) : before bs = bs := by
  have hsplit := before_append_trailing bs
  rwa [h, List.append_nil] at hsplit

/-- **`release_resource_if_need`** on any tiled heap with exact back links, `brk` succeeding.  The
    total it reports is that of the run of free blocks at the end, but what it does is right if
    and only if that run is at most one block or too small to be given back. -/
theorem release_run_iff (h : Tiled Eq s start bs) (hlink : Linked s (fun _ => True) bs) :
    ∃ s', releaseResourceIfNeed pg true s = some s' ∧
      (∃ a, trailingFree s = some (a, total (trailing bs))) ∧
      (ReleasesRun pg s s' bs ↔
        (trailing bs).length ≤ 1 ∨ total (trailing bs) < pg.memDeallocSize) := by
  have hrun := trailingFree_run h
  rcases Nat.lt_or_ge (total (trailing bs)) pg.memDeallocSize with hlt | hge
  · refine ⟨s, release_skip hrun hlt, ⟨_, hrun⟩, fun _ => Or.inr hlt, fun _ => ?_⟩
    unfold ReleasesRun
    rw [if_neg (by omega)]
    exact ⟨rfl, h.laid.toListed⟩
  · -- there is something to release, so the list ends in a free block `t`
    rcases last_free_or bs with ⟨l, t, rfl, ht⟩ | hbusy
    · have htr : trailing (l ++ [t]) = trailing l ++ [t] := List.rtakeWhile_concat_pos _ _ _ ht
      have hbe : before (l ++ [t]) = before l := List.rdropWhile_concat_pos _ _ _ ht
      have hend : t.addr + t.size = s.brk := (tiles_mid.mp h.tiles).2
      rw [htr, lastAddr_concat] at hrun
      have hprev := (linked_concat.mp hlink).2 trivial
      rw [htr] at hge
      refine ⟨_, release_cut hrun hge hprev, ⟨_, htr ▸ hrun⟩, ?_⟩
      have hcutl : Listed (brkTo (unlinkLast s l t) true t.addr) l :=
        ⟨unlinkLast_seg h.laid.toListed, fun c hc => h.addr_ne_null (by simp [hc])⟩
      unfold ReleasesRun
      rw [htr, hbe, if_pos hge]
      show t.addr + total (trailing l ++ [t]) = s.brk ∧ _ ↔ _
      rw [total_append, total_singleton] at *
      constructor
      · rintro ⟨hbrk, -⟩
        left
        have hnil : trailing l = [] :=
          trailing_eq_nil (fun c hc => h.pos c (List.mem_append_left [t] hc)) (by omega)
        rw [hnil]
        exact Nat.le_refl 1
      · rintro (hone | hsmall)
        · have hnil : trailing l = [] := by
            rw [List.length_append, List.length_singleton] at hone
            exact List.length_eq_zero_iff.mp (by omega)
          rw [hnil, before_eq_self hnil]
          refine ⟨?_, hcutl⟩
          show t.addr + (0 + t.size) = s.brk
          omega
        · omega
    · rw [trailing_busy hbusy] at hge
      exact absurd hge (Nat.not_le.mpr pg.memDealloc_pos)

/-- A block in use and one of 20000 bytes that is free. -/
def oneFree : Heap where
  firstBlock := 4096
  mem := fun a => if a = 4096 then ⟨100, false, NULL, 4196⟩ else ⟨20000, true, 4096, NULL⟩
  brk := 24196
  errno := .none

theorem oneFree_tiled : Tiled Eq oneFree 4096 [⟨4096, 100, false⟩, ⟨4196, 20000, true⟩] where
  gap := GapRel.eq
  seg := by simp [seg_cons, Holds, Heap.next, oneFree]
  tiles := by simp [oneFree]
  pos := by decide
  start_pos := by decide
  hi_lt := by decide

/-- A run of one block is given back whole. -/
theorem release_run_oneFree : ∃ s', releaseResourceIfNeed page4096 true oneFree = some s' ∧
    ReleasesRun page4096 oneFree s' [⟨4096, 100, false⟩, ⟨4196, 20000, true⟩] := by
  have hlink : Linked oneFree (fun _ => True) [⟨4096, 100, false⟩, ⟨4196, 20000, true⟩] := by
    simp [Linked, LinkedFrom, Heap.prev, oneFree]
  obtain ⟨s', hcall, -, hiff⟩ := release_run_iff oneFree_tiled hlink
  exact ⟨s', hcall, hiff.mpr (Or.inl (by decide))⟩

/-- The same with the free bytes in two blocks, of 8000 and 12000 bytes. -/
def twoFree : Heap where
  firstBlock := 4096
  mem := fun a => if a = 4096 then ⟨100, false, NULL, 4196⟩
    else if a = 4196 then ⟨8000, true, 4096, 12196⟩ else ⟨12000, true, 4196, NULL⟩
  brk := 24196
  errno := .none

/-- The blocks of `twoFree`. -/
def twoFreeBlocks : List Blk := [⟨4096, 100, false⟩, ⟨4196, 8000, true⟩, ⟨12196, 12000, true⟩]

theorem twoFree_tiled : Tiled Eq twoFree 4096 twoFreeBlocks where
  gap := GapRel.eq
  seg := by simp [seg_cons, Holds, Heap.next, twoFree, twoFreeBlocks]
  tiles := by simp [twoFree, twoFreeBlocks]
  pos := by decide
  start_pos := by decide
  hi_lt := by decide

/-- **Of a run of two blocks only the second is given back**: the break goes down by 12000 bytes,
    not by the 20000 that are reported. -/
theorem release_leaves_first : Tiled Eq twoFree 4096 twoFreeBlocks ∧
    Linked twoFree (fun _ => True) twoFreeBlocks ∧
    ∃ s', releaseResourceIfNeed page4096 true twoFree = some s' ∧
      ¬ ReleasesRun page4096 twoFree s' twoFreeBlocks := by
  have hlink : Linked twoFree (fun _ => True) twoFreeBlocks := by
    simp [Linked, LinkedFrom, Heap.prev, twoFree, twoFreeBlocks]
  have hbrk : (releaseResourceIfNeed page4096 true twoFree).map Heap.brk = some 12196 := by
    decide +kernel
  obtain ⟨s', hcall, hs'⟩ := Option.map_eq_some_iff.mp hbrk
  refine ⟨twoFree_tiled, hlink, s', hcall, fun hrel => ?_⟩
  have htotal : total (trailing twoFreeBlocks) = 20000 := by decide
  unfold ReleasesRun at hrel
  rw [htotal, if_pos (by decide), hs'] at hrel
  exact absurd hrel.1 (by decide)

end LinuxInterface.Malloc
