/-
  Whole runs of `my_malloc` and `my_free`.

  1. **Runs** — a `World` is the heap together with the pointers handed out and not yet given
     back; a `Call` is one call of the program and what the kernel answers to it.

  2. **The defect** — `resize_block` and the second half of `free_and_merge` leave the `prev` of
     the block behind them as it was.  A later `my_free` of that block trusts it.  `ReadsExactPrev`
     says of a call that it does not meet such a `prev`.

  3. **The invariant** (`Accounts`) — the list tiles the heap, the FREE blocks have an exact
     `prev`, and the blocks in use are, up to order, the pointers handed out.  Nothing is said
     about the `prev` of a block in use: that is the one thing the code does not keep.  It holds
     with the blocks edge to edge when every `brk` succeeds (`R` is `=`) and with gaps between
     them when `brk` may refuse (`R` is `≤`).

  4. **Whole runs** — one call keeps the invariant (`Accounts.step`), hence so does every run
     without the defect.  What follows for the program is in `Ch07.MallocSafety`.
-/
import LinuxInterface.Base.Reach
import LinuxInterface.Ch07.MallocCalls

namespace LinuxInterface.Malloc

open LinuxInterface

/-! ## Runs -/

/-- The heap, and the pointers that `my_malloc` returned and `my_free` has not yet got. -/
structure World where
  heap : Heap
  live : List Nat

/-- A call, and whether the kernel grants the `sbrk` or `brk` it makes, if any. -/
inductive Call where
  | malloc (size : Nat) (ok : Bool)
  | free (mem : Nat) (brkOk : Bool)

/-- One call. -/
def step (pg : Page) (w : World) : Call → Option World
  | .malloc size ok => (myMalloc pg ok w.heap size).map fun (s, p) =>
      ⟨s, if p = NULL then w.live else p :: w.live⟩
  | .free mem brkOk => (myFree pg brkOk w.heap mem).map fun s => ⟨s, w.live.erase mem⟩

/-- The state before the first call, with the break at `start`. -/
structure Initial (start : Nat) (w : World) : Prop where
  empty : w.heap.firstBlock = NULL
  brk : w.heap.brk = start
  live : w.live = []
  pos : 0 < start
  lt : start < 2 ^ 64

/-- `my_free` gets `NULL` or a pointer handed out and not freed since. -/
def ValidFree (w : World) : Call → Prop
  | .malloc _ _ => True
  | .free mem _ => mem = NULL ∨ mem ∈ w.live

/-- The kernel grants what it is asked for, and no `size_t` computation wraps. -/
def KernelGrants (pg : Page) (w : World) : Call → Prop
  | .malloc size ok => 0 < size → Granted pg ok w.heap size
  | .free _ brkOk => brkOk = true

/-- The `prev` of the block at `a` is exact: `NULL` for the first block, else the block ON THE
    LIST whose `next` is `a`. -/
def PrevExact (s : Heap) (a : Nat) : Prop :=
  (a = s.firstBlock ∧ s.prev a = NULL) ∨
    (OnList s.next NULL s.firstBlock (s.prev a) ∧ s.next (s.prev a) = a)

/-- The block that is freed has an exact `prev`. -/
def ReadsExactPrev (w : World) : Call → Prop
  | .malloc _ _ => True
  | .free mem _ => mem ≠ NULL → PrevExact w.heap (headerArea mem)

/-- `my_malloc` is asked for something that nothing in its arithmetic turns into something else,
    and if the kernel refuses, that is on the path that looks. -/
def MallocAnswered (pg : Page) (w : World) : Call → Prop
  | .malloc size ok => 0 < size → Granted pg ok w.heap size ∨ Refused pg ok w.heap size
  | .free _ _ => True

instance (w : World) : (c : Call) → Decidable (ValidFree w c)
  | .malloc _ _ => inferInstanceAs (Decidable True)
  | .free _ _ => inferInstanceAs (Decidable (_ ∨ _))

instance (pg : Page) (w : World) : (c : Call) → Decidable (KernelGrants pg w c)
  | .malloc _ _ => inferInstanceAs (Decidable (_ → _))
  | .free _ _ => inferInstanceAs (Decidable (_ = _))

/-! ## The invariant -/

/-- The pointer `my_malloc` returns for a block. -/
def payload (b : Blk) : Nat := b.addr + HEADER_SIZE

/-- The list of the heap is `bs`, the free blocks have an exact `prev`, the blocks in use are the
    live pointers, and when there are none the heap does not end in a large free block. -/
structure Accounts (R : Nat → Nat → Prop) (pg : Page) (start : Nat) (w : World) (bs : List Blk) :
    Prop extends Tidy R w.heap start bs where
  linked : FreeLinked w.heap bs
  live : w.live.Perm ((busy bs).map payload)
  small : w.live = [] → ∀ l t, bs = l ++ [t] → t.free = true → t.size < pg.memDeallocSize

variable {R : Nat → Nat → Prop} {pg : Page} {start : Nat} {w w₀ : World} {s : Heap}
  {l r bs : List Blk} {b c : Blk} {size mem : Nat} {ok brkOk : Bool} {call : Call}

/-- What `HEADER_AREA` makes of the pointer to a block. -/
theorem headerArea_payload (h : Tidy R s start bs) (hb : b ∈ bs) : headerArea (payload b) = b.addr :=
  (writableArea_eq h hb).2

theorem Initial.accounts (hR : GapRel R) (h : Initial start w) : Accounts R pg start w [] where
  gap := hR
  seg := seg_nil.mpr h.empty
  tiles := by rw [h.brk]; exact hR.refl start
  pos := fun _ hb => nomatch hb
  start_pos := h.pos
  hi_lt := by rw [h.brk]; exact h.lt
  big := fun _ hb => nomatch hb
  sep := List.isChain_nil
  linked := trivial
  live := by rw [h.live]; exact List.Perm.refl _
  small := fun _ l t ht => absurd ht (by simp)

/-- `errno` is not part of the heap. -/
theorem Tidy.setErrno (h : Tidy R s start bs) (e : Errno) :
    Tidy R { s with errno := e } start bs where
  gap := h.gap
  seg := h.seg
  tiles := h.tiles
  pos := h.pos
  start_pos := h.start_pos
  hi_lt := h.hi_lt
  big := h.big
  sep := h.sep

/-- There is one way to cut a list of blocks at a given block. -/
theorem TiledTo.cut_unique {hi : Nat} {l' r' : List Blk} (h : TiledTo R hi s start (l ++ b :: r))
    (heq : l' ++ b :: r' = l ++ b :: r) : l' = l := by
  have h' : TiledTo R hi s start (l' ++ b :: r') := heq ▸ h
  rcases List.append_eq_append_iff.mp heq with ⟨m, hl, hm⟩ | ⟨m, hl, hm⟩
  · cases m with
    | nil => rw [hl, List.append_nil]
    | cons c m =>
      have hc : b = c := (List.cons.inj hm).1
      exact absurd (h.left_lt (c := b) (by rw [hl, hc]; simp)) (Nat.lt_irrefl _)
  · cases m with
    | nil => rw [hl, List.append_nil]
    | cons c m =>
      have hc : b = c := (List.cons.inj hm).1
      exact absurd (h'.left_lt (c := b) (by rw [hl, hc]; simp)) (Nat.lt_irrefl _)

/-- An exact `prev` is the block before. -/
theorem prev_eq_of_exact (h : Tidy R s start (l ++ b :: r)) (hex : PrevExact s b.addr) :
    s.prev b.addr = lastAddr l := by
  rcases hex with ⟨hfirst, hnull⟩ | ⟨hon, hnext⟩
  · -- the first block of the list is the one with the address `firstBlock`
    cases l with
    | nil => exact hnull
    | cons c l =>
      have hlt := h.left_lt (c := c) (by simp)
      rw [hfirst, h.firstBlock_cons] at hlt
      exact absurd hlt (Nat.lt_irrefl _)
  · obtain ⟨c, hc, hca⟩ := List.mem_map.mp (h.chain.mem_of_onList hon)
    obtain ⟨l', r', hcut⟩ := List.append_of_mem hc
    rw [← hca] at hnext ⊢
    have h' : Tidy R s start (l' ++ c :: r') := hcut ▸ h
    cases r' with
    | nil =>
      rw [h'.next_last] at hnext
      exact absurd hnext.symm (h.addr_ne_null (b := b) (by simp))
    | cons d r' =>
      -- `c` is followed by the block at the address of `b`, which is `b`
      rw [h'.next_eq] at hnext
      have hdb : d = b := h.addr_inj (by rw [hcut]; simp) (by simp) hnext
      subst hdb
      have hcut' : (l' ++ [c]) ++ d :: r' = l ++ d :: r := by rw [hcut]; simp
      have hl : l' ++ [c] = l := h.cut_unique hcut'
      rw [← hl, lastAddr_concat]

/-! ## One call keeps the invariant -/

/-- **`my_malloc`.**  It returns; the break does not go down; and the result is `NULL` or the
    payload of a block that is now in use and large enough. -/
theorem Accounts.malloc (h : Accounts R pg start w bs)
    (hgo : 0 < size → Granted pg ok w.heap size ∨ Refused pg ok w.heap size) :
    ∃ s' p bs', myMalloc pg ok w.heap size = some (s', p) ∧ w.heap.brk ≤ s'.brk ∧
      Accounts R pg start ⟨s', if p = NULL then w.live else p :: w.live⟩ bs' ∧
      (p = NULL ∨ ∃ b ∈ bs', p = payload b ∧ size + HEADER_SIZE ≤ b.size) := by
  rcases Nat.eq_zero_or_pos size with rfl | hpos
  · exact ⟨w.heap, NULL, bs, rfl, Nat.le_refl _, h, Or.inl rfl⟩
  rcases hgo hpos with hgranted | hrefused
  · obtain ⟨s', l, b, r, hi, hcall, hc, hbrk, htidy, hlink⟩ := h.toTidy.myMalloc h.linked hpos hgranted
    obtain ⟨-, hm, hbusy, hle⟩ := hc.spec
    obtain ⟨haddr, -, hge, -⟩ := served_spec hm
    have hmem : served b (size + HEADER_SIZE) ∈ l ++ (carve b (size + HEADER_SIZE) ++ r) :=
      List.mem_append_right _ (List.mem_append_left _ (served_mem_carve b _))
    have hp : writableArea b.addr = payload (served b (size + HEADER_SIZE)) := by
      rw [← haddr]
      exact (writableArea_eq htidy hmem).1
    have hne : payload (served b (size + HEADER_SIZE)) ≠ NULL := Nat.succ_ne_zero _
    rw [hp] at hcall
    refine ⟨s', _, _, hcall, by rw [hbrk]; exact hle, ⟨htidy, hlink, ?_, ?_⟩,
      Or.inr ⟨_, hmem, rfl, hge⟩⟩
    · -- the block handed out is new among the blocks in use, the others are the same
      rw [if_neg hne, busy_append, busy_append, busy_carve hm]
      have hmid : (busy l ++ ([served b (size + HEADER_SIZE)] ++ busy r)).Perm
          (served b (size + HEADER_SIZE) :: busy bs) := by
        rw [← hbusy, busy_append]
        exact List.perm_middle
      exact (h.live.cons _).trans (hmid.map payload).symm
    · intro hnil
      rw [if_neg hne] at hnil
      nomatch hnil
  · exact ⟨_, NULL, bs, myMalloc_of_refused hpos hrefused, Nat.le_refl _,
      ⟨h.toTidy.setErrno _, h.linked, h.live, h.small⟩, Or.inl rfl⟩

/-- A live pointer is the payload of a block in use. -/
theorem Accounts.block_of_live (h : Accounts R pg start w bs) (hmem : mem ∈ w.live) :
    ∃ l b r, bs = l ++ b :: r ∧ b.free = false ∧ mem = payload b := by
  obtain ⟨b, hb, hpay⟩ := List.mem_map.mp (h.live.mem_iff.mp hmem)
  obtain ⟨hbs, hfree⟩ := mem_busy.mp hb
  obtain ⟨l, r, hcut⟩ := List.append_of_mem hbs
  exact ⟨l, b, r, hcut, hfree, hpay.symm⟩

/-- **`my_free`** of `NULL` or a live pointer, the block's `prev` being exact. -/
theorem Accounts.free (h : Accounts R pg start w bs) (brkOk : Bool)
    (hmem : mem = NULL ∨ mem ∈ w.live)
    (hprev : mem ≠ NULL → PrevExact w.heap (headerArea mem))
    (hroom : brkOk = false → ∀ x y, x ≤ y → R x y) :
    ∃ s' bs', myFree pg brkOk w.heap mem = some s' ∧
      Accounts R pg start ⟨s', w.live.erase mem⟩ bs' := by
  rcases hmem with rfl | hmem
  · -- `NULL` is not a live pointer
    have hnot : NULL ∉ w.live := by
      intro h0
      obtain ⟨_, b, _, -, -, hpay⟩ := h.block_of_live h0
      exact absurd hpay.symm (Nat.succ_ne_zero _)
    refine ⟨w.heap, bs, rfl, ?_⟩
    rw [List.erase_of_not_mem hnot]
    exact h
  · obtain ⟨l, b, r, rfl, hfree, rfl⟩ := h.block_of_live hmem
    have hex := hprev (Nat.succ_ne_zero _)
    rw [headerArea_payload h.toTidy (by simp)] at hex
    obtain ⟨s', bs', hcall, htidy, hlink, hbusy, hsmall, -⟩ := h.toTidy.myFree pg brkOk h.linked
      (prev_eq_of_exact h.toTidy hex) hroom
    refine ⟨s', bs', hcall, htidy, hlink, ?_, fun _ => hsmall⟩
    have hlive : w.live.Perm (payload b :: (busy (l ++ r)).map payload) := by
      refine h.live.trans ?_
      rw [busy_append, busy_cons_busy hfree, busy_append, ← List.map_cons]
      exact List.perm_middle.map payload
    have herase := hlive.erase (payload b)
    rw [List.erase_cons_head] at herase
    rw [hbusy]
    exact herase

/-- Every call without the defect returns, and keeps the invariant. -/
theorem Accounts.step (h : Accounts R pg start w bs) (hvalid : ValidFree w call)
    (hread : ReadsExactPrev w call) (hans : MallocAnswered pg w call)
    (hroom : ∀ mem, call = .free mem false → ∀ x y, x ≤ y → R x y) :
    ∃ w', step pg w call = some w' ∧ ∃ bs', Accounts R pg start w' bs' := by
  cases call with
  | malloc size ok =>
    obtain ⟨s', p, bs', hcall, -, hacc, -⟩ := h.malloc hans
    refine ⟨_, ?_, bs', hacc⟩
    show (myMalloc pg ok w.heap size).map _ = _
    rw [hcall]
    rfl
  | free mem brkOk =>
    obtain ⟨s', bs', hcall, hacc⟩ := h.free brkOk hvalid hread
      (fun hno => hroom mem (by rw [hno]))
    refine ⟨_, ?_, bs', hacc⟩
    show (myFree pg brkOk w.heap mem).map _ = _
    rw [hcall]
    rfl

/-- A legitimate call, granted by the kernel. -/
def Legitimate (pg : Page) (w : World) (call : Call) : Prop :=
  ValidFree w call ∧ KernelGrants pg w call

instance (pg : Page) (w : World) (call : Call) : Decidable (Legitimate pg w call) :=
  inferInstanceAs (Decidable (_ ∧ _))

/-- A legitimate call that does not meet a stale `prev`. -/
def Careful (pg : Page) (w : World) (call : Call) : Prop :=
  Legitimate pg w call ∧ ReadsExactPrev w call

/-- The same with a kernel that may refuse, and no request that the arithmetic of `my_malloc`
    turns into something else or whose refusal it overlooks. -/
def CarefulAnyKernel (pg : Page) (w : World) (call : Call) : Prop :=
  ValidFree w call ∧ MallocAnswered pg w call ∧ ReadsExactPrev w call

theorem KernelGrants.answered (h : KernelGrants pg w call) : MallocAnswered pg w call := by
  cases call with
  | malloc size ok => exact fun hpos => Or.inl (h hpos)
  | free mem brkOk => trivial

theorem Careful.anyKernel (h : Careful pg w call) : CarefulAnyKernel pg w call :=
  ⟨h.1.1, h.1.2.answered, h.2⟩

/-- A careful call does not meet a `brk` that refuses. -/
theorem Careful.step (hc : Careful pg w call) (h : Accounts Eq pg start w bs) :
    ∃ w', step pg w call = some w' ∧ ∃ bs', Accounts Eq pg start w' bs' := by
  obtain ⟨⟨hvalid, hgrants⟩, hread⟩ := hc
  refine h.step hvalid hread hgrants.answered ?_
  rintro mem rfl
  nomatch (hgrants : false = true)

/-- **The invariant of careful runs.** -/
theorem careful_accounts (h0 : Initial start w₀) (h : Reach (step pg) (Careful pg) w₀ w) :
    ∃ bs, Accounts Eq pg start w bs :=
  h.inv_of_returns (I := fun w => ∃ bs, Accounts Eq pg start w bs) ⟨[], h0.accounts GapRel.eq⟩
    fun _ _ ⟨_, hacc⟩ hc => hc.step hacc

/-- **The invariant when the kernel may refuse.** -/
theorem anyKernel_accounts (h0 : Initial start w₀)
    (h : Reach (step pg) (CarefulAnyKernel pg) w₀ w) : ∃ bs, Accounts (· ≤ ·) pg start w bs :=
  h.inv_of_returns (I := fun w => ∃ bs, Accounts (· ≤ ·) pg start w bs)
    ⟨[], h0.accounts GapRel.room⟩
    fun _ _ ⟨_, hacc⟩ ⟨hvalid, hans, hread⟩ => hacc.step hvalid hread hans fun _ _ _ _ hle => hle

/-- No call of a careful run hangs. -/
theorem careful_returns (h0 : Initial start w₀) (h : Reach (step pg) (Careful pg) w₀ w)
    (hc : Careful pg w call) : ∃ w', step pg w call = some w' := by
  obtain ⟨bs, hacc⟩ := careful_accounts h0 h
  obtain ⟨w', hstep, -⟩ := hc.step hacc
  exact ⟨w', hstep⟩

/-! ## What can be run

  A run given by its calls is carried out by `runList`.  Whether a `prev` is exact is not
  decided in general, but for the first block it is. -/

/-- Only the first block of the list is freed, and its `prev` is `NULL`. -/
def FreesFirst (w : World) : Call → Prop
  | .malloc _ _ => True
  | .free mem _ => headerArea mem = w.heap.firstBlock ∧ w.heap.prev (headerArea mem) = NULL

instance (w : World) : (c : Call) → Decidable (FreesFirst w c)
  | .malloc _ _ => inferInstanceAs (Decidable True)
  | .free _ _ => inferInstanceAs (Decidable (_ ∧ _))

theorem FreesFirst.readsExactPrev (h : FreesFirst w call) : ReadsExactPrev w call := by
  cases call with
  | malloc size ok => trivial
  | free mem brkOk => exact fun _ => Or.inl h

/-- Nothing handed out yet, the break at 4096. -/
def world4096 : World := ⟨blank 4096, []⟩

theorem world4096_initial : Initial 4096 world4096 := ⟨rfl, rfl, rfl, by decide, by decide⟩

/-- What is seen after a run that frees first blocks only. -/
theorem careful_of_observed {α : Type} {f : World → α} {x : α} {calls : List Call}
    (h : (runList (step page4096) (fun w c => Legitimate page4096 w c ∧ FreesFirst w c) world4096
      calls).map f = some x) :
    ∃ w, Reach (step page4096) (Careful page4096) world4096 w ∧ f w = x := by
  obtain ⟨w, hw, hx⟩ := Reach.of_observed h
  exact ⟨w, hw.mono fun _ _ hc => ⟨hc.1, hc.2.readsExactPrev⟩, hx⟩

end LinuxInterface.Malloc
