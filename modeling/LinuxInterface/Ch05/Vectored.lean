/-
  ch05/7_rwc.c: `my_writev` and `my_readv`, loops of `write` and `read` over an array of buffers.

  1. **The program** — `myWritev` and `myReadv` run over the buffers with a total that is an
     `ssize_t`; the kernel decides what each call moves (`Writes`, `Reads`).

  2. **The calls of a run** — `writes` and `reads` list what the calls moved, up to the first one
     that fails (and, for reading, the first that is short).  From the list alone follow the
     value returned, the file and the buffers: `myWritev_eq` and `myReadv_eq`.

  3. **Reading** — the loop stops at the first short read, so the buffers are filled one behind the
     other (`Fills`), and what is read is a beginning of the stream (`myReadv_scatters`).

  4. **Writing** — the loop does NOT stop at a short write: the next buffer follows where the
     first one broke off.  The file gets a beginning of the data if nothing moves after a short
     write, and only then if that is to hold for all contents of the buffers
     (`myWritev_beginning`).

  5. **Failure** — both return `-1` whatever has moved before (`failed_moves_nothing_iff`).

  6. **Round trip** — what is written in one partition is read in any other (`readv_of_writev`).
-/
import LinuxInterface.Base.OpenFile
import LinuxInterface.Base.SizeT
import Mathlib.Algebra.GroupWithZero.Nat

namespace LinuxInterface.Vectored

open LinuxInterface

/-! ## The program -/

/-- The loop of `my_writev` from its `i`-th buffer on. -/
def writevLoop (w : Writes) : Nat → List (List UInt8) → Int → OpenFile → Int × OpenFile
  | _, [], totalWritten, fd => (totalWritten, fd)
  | i, b :: iov, totalWritten, fd =>
    match w.write i fd b with
    | (bytesWritten, fd) =>
      if bytesWritten = -1 then (-1, fd)
      else writevLoop w (i + 1) iov (addSs totalWritten bytesWritten) fd

/-- `my_writev`. -/
def myWritev (w : Writes) (iov : List (List UInt8)) (fd : OpenFile) : Int × OpenFile :=
  writevLoop w 0 iov 0 fd

/-- The loop of `my_readv` from its `i`-th buffer on, with what it leaves in the buffers. -/
def readvLoop (r : Reads) :
    Nat → List (List UInt8) → Int → OpenFile → Int × List (List UInt8) × OpenFile
  | _, [], totalRead, fd => (totalRead, [], fd)
  | i, b :: iov, totalRead, fd =>
    match r.read i fd b with
    | (bytesRead, b', fd) =>
      if bytesRead = -1 then (-1, b' :: iov, fd)
      -- the count is signed and the length is not: the comparison is one of `size_t` values
      else if toSizeT bytesRead < b.length then (addSs totalRead bytesRead, b' :: iov, fd)
      else
        match readvLoop r (i + 1) iov (addSs totalRead bytesRead) fd with
        | (t, iov', fd) => (t, b' :: iov', fd)

/-- `my_readv`. -/
def myReadv (r : Reads) (iov : List (List UInt8)) (fd : OpenFile) :
    Int × List (List UInt8) × OpenFile :=
  readvLoop r 0 iov 0 fd

/-! ## The calls of a run -/

/-- What the calls of a run moved, in order, and whether a failed call ended it. -/
structure Calls where
  counts : List Nat
  failed : Bool

/-- One more call in front. -/
def Calls.after (k : Nat) (c : Calls) : Calls := ⟨k :: c.counts, c.failed⟩

/-- What the loop returns that has counted `total` bytes before these calls. -/
def Calls.result (total : Nat) (c : Calls) : Int :=
  if c.failed then -1 else ((total + c.counts.sum : Nat) : Int)

@[simp] theorem Calls.after_counts (k : Nat) (c : Calls) : (c.after k).counts = k :: c.counts := rfl

@[simp] theorem Calls.after_failed (k : Nat) (c : Calls) : (c.after k).failed = c.failed := rfl

theorem Calls.result_after (total k : Nat) (c : Calls) :
    (c.after k).result total = c.result (total + k) := by
  unfold Calls.result
  rw [Calls.after_counts, List.sum_cons, Nat.add_assoc]
  rfl

/-- A count is returned if no call failed, and it is the sum. -/
theorem Calls.result_natCast {total t : Nat} {c : Calls} (h : c.result total = t) :
    c.failed = false ∧ t = total + c.counts.sum := by
  unfold Calls.result at h
  split at h
  · omega
  · next hf =>
    rw [Bool.not_eq_true] at hf
    exact ⟨hf, by omega⟩

/-- The calls of `my_writev` from its `i`-th buffer on. -/
def writes (w : Writes) : Nat → List (List UInt8) → OpenFile → Calls
  | _, [], _ => ⟨[], false⟩
  | i, b :: iov, f =>
    match w.answer i f b.length with
    | none => ⟨[], true⟩
    | some k => (writes w (i + 1) iov (f.put (b.take k))).after k

/-- The calls of `my_readv` from its `i`-th buffer on. -/
def reads (r : Reads) : Nat → List (List UInt8) → OpenFile → Calls
  | _, [], _ => ⟨[], false⟩
  | i, b :: iov, f =>
    match r.answer i f b.length with
    | none => ⟨[], true⟩
    | some k =>
      if k < b.length then ⟨[k], false⟩ else (reads r (i + 1) iov (f.skip k)).after k

section

variable {w : Writes} {r : Reads} {i k : Nat} {b : List UInt8} {iov : List (List UInt8)}
  {f : OpenFile}

/-- A write that fails is the last one. -/
theorem writes_none (h : w.answer i f b.length = none) :
    writes w i (b :: iov) f = ⟨[], true⟩ := by
  rw [writes, h]

/-- A write that does not is followed by the next, short or not. -/
theorem writes_some (h : w.answer i f b.length = some k) :
    writes w i (b :: iov) f = (writes w (i + 1) iov (f.put (b.take k))).after k := by
  rw [writes, h]

/-- A `read` into the buffer `b` fails, falls short of it or fills it. -/
theorem read_cases (r : Reads) (i : Nat) (f : OpenFile) (b : List UInt8) :
    r.answer i f b.length = none ∨ (∃ k < b.length, r.answer i f b.length = some k) ∨
      r.answer i f b.length = some b.length := by
  cases hk : r.answer i f b.length with
  | none => exact .inl rfl
  | some k =>
    rcases Nat.lt_or_eq_of_le (r.le hk) with hshort | hfull
    · exact .inr (.inl ⟨k, hshort, rfl⟩)
    · exact .inr (.inr (by rw [hfull]))

theorem reads_none (h : r.answer i f b.length = none) : reads r i (b :: iov) f = ⟨[], true⟩ := by
  rw [reads, h]

/-- A short read is the last one. -/
theorem reads_short (h : r.answer i f b.length = some k) (hk : k < b.length) :
    reads r i (b :: iov) f = ⟨[k], false⟩ := by
  rw [reads, h]
  exact if_pos hk

/-- Only a full one is followed by the next. -/
theorem reads_full (h : r.answer i f b.length = some b.length) :
    reads r i (b :: iov) f = (reads r (i + 1) iov (f.skip b.length)).after b.length := by
  rw [reads, h]
  exact if_neg (Nat.lt_irrefl _)

end

/-- Each count belongs to a buffer, the first ones of the array, and is not more than that has. -/
inductive Taken : List Nat → List (List UInt8) → Prop
  | stop (iov : List (List UInt8)) : Taken [] iov
  | next {k : Nat} {b : List UInt8} {ks : List Nat} {iov : List (List UInt8)} :
      k ≤ b.length → Taken ks iov → Taken (k :: ks) (b :: iov)

variable {ks : List Nat} {iov : List (List UInt8)}

/-- The first bytes of the buffers, as many of each as its count says, one behind the other. -/
def gathered (ks : List Nat) (iov : List (List UInt8)) : List UInt8 :=
  (List.zipWith List.take ks iov).flatten

@[simp] theorem gathered_nil (iov : List (List UInt8)) : gathered [] iov = [] := rfl

@[simp] theorem gathered_cons (k : Nat) (ks : List Nat) (b : List UInt8) (iov : List (List UInt8)) :
    gathered (k :: ks) (b :: iov) = b.take k ++ gathered ks iov := rfl

/-- As many bytes are gathered as the calls have moved. -/
theorem Taken.length_gathered (h : Taken ks iov) : (gathered ks iov).length = ks.sum := by
  induction h with
  | stop iov => rfl
  | next hk _ ih => simp [ih, hk]

theorem writes_taken (w : Writes) (iov : List (List UInt8)) :
    ∀ (i : Nat) (f : OpenFile), Taken (writes w i iov f).counts iov := by
  induction iov with
  | nil => exact fun _ _ => .stop []
  | cons b iov ih =>
    intro i f
    cases hk : w.answer i f b.length with
    | none =>
      rw [writes_none hk]
      exact .stop (b :: iov)
    | some k =>
      rw [writes_some hk]
      exact .next (w.le hk) (ih (i + 1) _)

/-- The loop of `my_writev`, from its calls.  The total stays below the offset, so the sum never
    leaves the range of `ssize_t`. -/
theorem writevLoop_eq (w : Writes) (iov : List (List UInt8)) :
    ∀ (i total : Nat) (f : OpenFile), total ≤ f.offset →
      writevLoop w i iov total f =
        ((writes w i iov f).result total, f.put (gathered (writes w i iov f).counts iov)) := by
  induction iov with
  | nil =>
    intro i total f _
    simp [writevLoop, writes, Calls.result]
  | cons b iov ih =>
    intro i total f htotal
    rw [writevLoop, Writes.write]
    cases hk : w.answer i f b.length with
    | none => simp [writes_none hk, Calls.result]
    | some k =>
      have hlen : (b.take k).length = k := by rw [List.length_take, Nat.min_eq_left (w.le hk)]
      have hoff := w.offset hk
      have hne : (k : Int) ≠ -1 := by omega
      have hsum : total + k < 2 ^ 63 := by omega
      have htotal' : total + k ≤ (f.put (b.take k)).offset := by
        rw [OpenFile.put_offset, hlen]
        omega
      simp only [if_neg hne]
      rw [addSs_natCast hsum, ih (i + 1) (total + k) _ htotal', writes_some hk, Calls.result_after,
        Calls.after_counts, gathered_cons, OpenFile.put_put]

/-- The calls decide what is returned and what is written. -/
theorem myWritev_eq (w : Writes) (iov : List (List UInt8)) (f : OpenFile) :
    myWritev w iov f =
      ((writes w 0 iov f).result 0, f.put (gathered (writes w 0 iov f).counts iov)) :=
  writevLoop_eq w iov 0 0 f (Nat.zero_le _)

/-! ## Reading -/

/-- The buffers after calls that moved `ks` bytes of the stream `s`. -/
def scattered : List Nat → List UInt8 → List (List UInt8) → List (List UInt8)
  | k :: ks, s, b :: iov => (s.take k ++ b.drop k) :: scattered ks (s.drop k) iov
  | _, _, iov => iov

@[simp] theorem scattered_nil (s : List UInt8) (iov : List (List UInt8)) :
    scattered [] s iov = iov := by
  cases iov <;> rfl

/-- The calls fill the buffers one behind the other: all are full except perhaps the last. -/
inductive Fills : List Nat → List (List UInt8) → Prop
  | stop (iov : List (List UInt8)) : Fills [] iov
  | last {k : Nat} {b : List UInt8} (iov : List (List UInt8)) : k ≤ b.length → Fills [k] (b :: iov)
  | full {b : List UInt8} {ks : List Nat} {iov : List (List UInt8)} :
      Fills ks iov → Fills (b.length :: ks) (b :: iov)

/-- No buffer gets more than it has room for. -/
theorem Fills.taken (h : Fills ks iov) : Taken ks iov := by
  induction h with
  | stop iov => exact .stop iov
  | last iov hk => exact .next hk (.stop iov)
  | full _ ih => exact .next (Nat.le_refl _) ih

theorem Fills.dropLast (h : Fills ks iov) : ks.dropLast <+: iov.map List.length := by
  induction h with
  | stop iov => exact List.nil_prefix
  | last iov _ => exact List.nil_prefix
  | @full b ks iov _ ih =>
    cases ks with
    | nil => exact List.nil_prefix
    | cons k ks => exact List.cons_prefix_cons.mpr ⟨rfl, ih⟩

theorem reads_fills (r : Reads) (iov : List (List UInt8)) :
    ∀ (i : Nat) (f : OpenFile), Fills (reads r i iov f).counts iov := by
  induction iov with
  | nil => exact fun _ _ => .stop []
  | cons b iov ih =>
    intro i f
    rcases read_cases r i f b with h | ⟨k, hk, h⟩ | h
    · rw [reads_none h]
      exact .stop (b :: iov)
    · rw [reads_short h hk]
      exact .last iov (Nat.le_of_lt hk)
    · rw [reads_full h]
      exact .full (ih (i + 1) _)

/-- No more is read than there is. -/
theorem reads_sum_le (r : Reads) (iov : List (List UInt8)) :
    ∀ (i : Nat) (f : OpenFile), (reads r i iov f).counts.sum ≤ f.rest.length := by
  induction iov with
  | nil => exact fun _ _ => Nat.zero_le _
  | cons b iov ih =>
    intro i f
    rcases read_cases r i f b with h | ⟨k, hk, h⟩ | h
    · rw [reads_none h]
      exact Nat.zero_le _
    · rw [reads_short h hk, List.sum_singleton]
      exact r.there h
    · have hthere := r.there h
      have hrest := ih (i + 1) (f.skip b.length)
      rw [OpenFile.rest_skip, List.length_drop] at hrest
      rw [reads_full h, Calls.after_counts, List.sum_cons]
      omega

/-- The loop of `my_readv`, from its calls. -/
theorem readvLoop_eq (r : Reads) (iov : List (List UInt8)) :
    ∀ (i total : Nat) (f : OpenFile), total ≤ f.offset →
      readvLoop r i iov total f =
        ((reads r i iov f).result total, scattered (reads r i iov f).counts f.rest iov,
          f.skip (reads r i iov f).counts.sum) := by
  induction iov with
  | nil =>
    intro i total f _
    simp [readvLoop, reads, Calls.result]
  | cons b iov ih =>
    intro i total f htotal
    rw [readvLoop, Reads.read]
    rcases read_cases r i f b with h | ⟨k, hk, h⟩ | h
    · simp [h, reads_none h, Calls.result]
    · -- a short read: the loop ends here
      have hoff := r.offset h
      have hne : (k : Int) ≠ -1 := by omega
      simp only [h, if_neg hne]
      rw [addSs_natCast (by omega), toSizeT_natCast (by omega), reads_short h hk]
      simp [hk, Calls.result, scattered]
    · have hoff := r.offset h
      have hne : (b.length : Int) ≠ -1 := by omega
      have htotal' : total + b.length ≤ (f.skip b.length).offset :=
        Nat.add_le_add_right htotal b.length
      simp only [h, if_neg hne]
      rw [addSs_natCast (by omega), toSizeT_natCast (by omega), if_neg (Nat.lt_irrefl _),
        reads_full h, ih (i + 1) (total + b.length) _ htotal', Calls.result_after,
        OpenFile.skip_skip, OpenFile.rest_skip]
      rfl

/-- The calls decide what is returned, what is stored, and where the file stands. -/
theorem myReadv_eq (r : Reads) (iov : List (List UInt8)) (f : OpenFile) :
    myReadv r iov f =
      ((reads r 0 iov f).result 0, scattered (reads r 0 iov f).counts f.rest iov,
        f.skip (reads r 0 iov f).counts.sum) :=
  readvLoop_eq r iov 0 0 f (Nat.zero_le _)

/-- The filled parts of the buffers hold the beginning of the stream. -/
theorem Taken.gathered_scattered (h : Taken ks iov) :
    ∀ s : List UInt8, ks.sum ≤ s.length → gathered ks (scattered ks s iov) = s.take ks.sum := by
  induction h with
  | stop iov =>
    intro s _
    rfl
  | @next k b ks iov hk _ ih =>
    intro s hs
    rw [List.sum_cons] at hs
    have hlen : (s.take k).length = k := by rw [List.length_take]; omega
    have hrest : ks.sum ≤ (s.drop k).length := by rw [List.length_drop]; omega
    calc gathered (k :: ks) (scattered (k :: ks) s (b :: iov))
        = (s.take k ++ b.drop k).take k ++ gathered ks (scattered ks (s.drop k) iov) := rfl
      _ = s.take k ++ (s.drop k).take ks.sum := by rw [List.take_left' hlen, ih _ hrest]
      _ = s.take (k :: ks).sum := by rw [List.sum_cons, List.take_add]

theorem Taken.map_length_scattered (h : Taken ks iov) :
    ∀ s : List UInt8, ks.sum ≤ s.length →
      (scattered ks s iov).map List.length = iov.map List.length := by
  induction h with
  | stop iov =>
    intro s _
    rw [scattered_nil]
  | @next k b ks iov hk _ ih =>
    intro s hs
    rw [List.sum_cons] at hs
    have hrest : ks.sum ≤ (s.drop k).length := by rw [List.length_drop]; omega
    have hlen : (s.take k ++ b.drop k).length = b.length := by
      rw [List.length_append, List.length_take, List.length_drop]
      omega
    rw [scattered, List.map_cons, List.map_cons, hlen, ih _ hrest]

/-- The buffers that no call was made for. -/
theorem Taken.drop_scattered (h : Taken ks iov) :
    ∀ s : List UInt8, (scattered ks s iov).drop ks.length = iov.drop ks.length := by
  induction h with
  | stop iov =>
    intro s
    rw [scattered_nil]
  | next _ _ ih => exact fun s => ih _

/-- `my_readv` that returns a count has read that many bytes of the stream, into buffers that are
    full up to the last one it made a call for, and has left the others as they were. -/
theorem myReadv_scatters {r : Reads} {iov iov' : List (List UInt8)} {f f' : OpenFile} {t : Nat}
    {ks : List Nat} (h : myReadv r iov f = ((t : Int), iov', f'))
    (hks : (reads r 0 iov f).counts = ks) :
    t = ks.sum ∧ t ≤ f.rest.length ∧ f' = f.skip t ∧
      gathered ks iov' = f.rest.take t ∧
      ks.dropLast <+: iov.map List.length ∧
      iov'.map List.length = iov.map List.length ∧
      iov'.drop ks.length = iov.drop ks.length := by
  subst hks
  have hfills := reads_fills r iov 0 f
  have hsum := reads_sum_le r iov 0 f
  rw [myReadv_eq, Prod.mk.injEq, Prod.mk.injEq] at h
  obtain ⟨hres, rfl, rfl⟩ := h
  obtain ⟨-, ht⟩ := Calls.result_natCast hres
  rw [Nat.zero_add] at ht
  subst ht
  exact ⟨rfl, hsum, rfl, hfills.taken.gathered_scattered _ hsum, hfills.dropLast,
    hfills.taken.map_length_scattered _ hsum, hfills.taken.drop_scattered _⟩

/-- A read of three bytes into two buffers of two, the second of which stays half empty. -/
theorem myReadv_scatters_three :
    (3 : Nat) = [2, 1].sum ∧ 3 ≤ (OpenFile.mk [97, 98, 99] 0).rest.length ∧
      OpenFile.mk [97, 98, 99] 3 = (OpenFile.mk [97, 98, 99] 0).skip 3 ∧
      gathered [2, 1] [[97, 98], [99, 0], [0]] = (OpenFile.mk [97, 98, 99] 0).rest.take 3 ∧
      [2, 1].dropLast <+: [[0, 0], [0, 0], [0]].map (List.length (α := UInt8)) ∧
      [[97, 98], [99, 0], [0]].map (List.length (α := UInt8)) =
        [[0, 0], [0, 0], [0]].map (List.length (α := UInt8)) ∧
      ([[97, 98], [99, 0], [0]] : List (List UInt8)).drop 2 = [[0, 0], [0, 0], [0]].drop 2 :=
  myReadv_scatters (r := Reads.regular) (t := 3) (by decide +kernel) (by decide +kernel)

/-! ## Writing -/

/-- No write moves a byte once one has been short. -/
def Gapless (ks : List Nat) (iov : List (List UInt8)) : Prop :=
  (ks.zip iov).Pairwise fun x y => 0 < y.1 → x.1 = x.2.length

theorem Taken.sum_eq_zero (h : Taken ks iov) (hzero : ∀ y ∈ ks.zip iov, y.1 = 0) :
    ks.sum = 0 := by
  induction h with
  | stop iov => rfl
  | next _ _ ih =>
    obtain ⟨hk, hks⟩ := List.forall_mem_cons.mp hzero
    rw [List.sum_cons, ih hks, Nat.add_zero]
    exact hk

theorem Taken.sum_le (h : Taken ks iov) : ks.sum ≤ iov.flatten.length := by
  induction h with
  | stop iov => exact Nat.zero_le _
  | next hk _ ih =>
    rw [List.sum_cons, List.flatten_cons, List.length_append]
    exact Nat.add_le_add hk ih

theorem gapless_of_sum (hzero : ks.sum = 0) : Gapless ks iov := by
  refine List.pairwise_of_forall_mem_list fun x _ y hy hpos => ?_
  have hy0 := List.sum_eq_zero_iff_forall_eq_nat.mp hzero y.1 (List.of_mem_zip hy).1
  omega

/-- Only the lengths of the buffers matter. -/
theorem Gapless.congr {iov' : List (List UInt8)} (h : Gapless ks iov)
    (hlens : iov'.map List.length = iov.map List.length) : Gapless ks iov' := by
  have hmap : ∀ iov : List (List UInt8),
      Gapless ks iov ↔ (ks.zip (iov.map List.length)).Pairwise fun x y => 0 < y.1 → x.1 = x.2 := by
    intro iov
    rw [List.zip_map_right, List.pairwise_map]
    rfl
  rw [hmap, hlens, ← hmap]
  exact h

/-- Without gaps the beginning of the data is written. -/
theorem Taken.gathered_gapless (h : Taken ks iov)
    (hgap : Gapless ks iov) : gathered ks iov = iov.flatten.take ks.sum := by
  induction h with
  | stop iov => simp
  | @next k b ks iov hk htaken ih =>
    obtain ⟨hhead, hgap'⟩ := List.pairwise_cons.mp hgap
    rw [gathered_cons, List.sum_cons, List.flatten_cons]
    by_cases hfull : k = b.length
    · subst hfull
      rw [List.take_length, List.take_length_add_append, ih hgap']
    · -- a short write: nothing moves behind it
      have hsum : ks.sum = 0 := by
        apply htaken.sum_eq_zero
        intro y hy
        exact Nat.eq_zero_of_not_pos fun hpos => hfull (hhead y hy hpos)
      have hrest : gathered ks iov = [] := by
        rw [← List.length_eq_zero_iff, htaken.length_gathered, hsum]
      rw [hrest, hsum, List.append_nil, Nat.add_zero, List.take_append_of_le_length hk]

/-- Buffers full of zeros, as long as these. -/
def zeros (iov : List (List UInt8)) : List (List UInt8) :=
  iov.map fun b => List.replicate b.length 0

theorem mem_gathered {x : UInt8} : ∀ {ks : List Nat} {iov : List (List UInt8)},
    x ∈ gathered ks iov → x ∈ iov.flatten
  | [], _, h => nomatch h
  | _ :: _, [], h => nomatch h
  | k :: ks, b :: iov, h => by
    rw [gathered_cons] at h
    rw [List.flatten_cons]
    rcases List.mem_append.mp h with h | h
    · exact List.mem_append_left _ (List.mem_of_mem_take h)
    · exact List.mem_append_right _ (mem_gathered h)

theorem not_mem_zeros (iov : List (List UInt8)) : (1 : UInt8) ∉ (zeros iov).flatten := by
  simp [zeros]

/-- **A gap can be seen**: with some contents of the buffers, what is written is not how the data
    begins. -/
theorem Taken.gap_shows (h : Taken ks iov) (hgap : ¬ Gapless ks iov) :
    ∃ iov' : List (List UInt8), iov'.map List.length = iov.map List.length ∧
      gathered ks iov' ≠ iov'.flatten.take ks.sum := by
  induction h with
  | stop iov => exact absurd List.Pairwise.nil hgap
  | @next k b ks iov hk htaken ih =>
    by_cases hfull : k = b.length
    · -- the gap is further on
      obtain ⟨iov', hlens, hne⟩ := ih fun hgap' =>
        hgap (List.pairwise_cons.mpr ⟨fun _ _ _ => hfull, hgap'⟩)
      refine ⟨b :: iov', by rw [List.map_cons, List.map_cons, hlens], fun heq => hne ?_⟩
      rw [gathered_cons, List.sum_cons, List.flatten_cons, hfull, List.take_length,
        List.take_length_add_append] at heq
      exact List.append_cancel_left heq
    · -- the byte behind the short write is the only one that is not 0
      have hsum : 0 < ks.sum := by
        refine Nat.pos_of_ne_zero fun hzero => hgap ?_
        refine List.pairwise_cons.mpr ⟨fun y hy hpos => ?_, gapless_of_sum hzero⟩
        have hy0 := List.sum_eq_zero_iff_forall_eq_nat.mp hzero y.1 (List.of_mem_zip hy).1
        omega
      let b' : List UInt8 := List.replicate k 0 ++ 1 :: List.replicate (b.length - k - 1) 0
      have hlen : b'.length = b.length := by
        simp only [b', List.length_append, List.length_cons, List.length_replicate]
        omega
      have htake : b'.take k = List.replicate k 0 := List.take_left' List.length_replicate
      refine ⟨b' :: zeros iov, ?_, fun heq => ?_⟩
      · simp [zeros, hlen]
      · have hin : (1 : UInt8) ∈ (b' :: zeros iov).flatten.take (k :: ks).sum := by
          have hsplit : (b' :: zeros iov).flatten = List.replicate k 0 ++
              1 :: (List.replicate (b.length - k - 1) 0 ++ (zeros iov).flatten) := by
            simp [b']
          obtain ⟨m, hm⟩ : ∃ m, (k :: ks).sum = k + (m + 1) :=
            ⟨ks.sum - 1, by rw [List.sum_cons]; omega⟩
          rw [hsplit, hm, List.take_append, List.length_replicate, Nat.add_sub_cancel_left]
          exact List.mem_append_right _ List.mem_cons_self
        rw [← heq, gathered_cons, htake] at hin
        rcases List.mem_append.mp hin with h | h
        · exact absurd (List.eq_of_mem_replicate h) (by decide)
        · exact not_mem_zeros iov (mem_gathered h)

/-- The kernel that answers the calls with these counts. -/
def replay (ks : List Nat) : Writes := Writes.upTo fun i _ => ks[i]?

/-- It makes the same calls, whatever is in the buffers. -/
theorem writes_replay {w : Writes} {ks : List Nat} :
    ∀ (iov iov' : List (List UInt8)) (i : Nat) (f g : OpenFile),
      iov'.map List.length = iov.map List.length → g.offset = f.offset →
      (writes w i iov f).failed = false → (∀ j, ks[i + j]? = (writes w i iov f).counts[j]?) →
      writes (replay ks) i iov' g = writes w i iov f
  | [], [], _, _, _, _, _, _, _ => rfl
  | [], _ :: _, _, _, _, hlens, _, _, _ => nomatch hlens
  | _ :: _, [], _, _, _, hlens, _, _, _ => nomatch hlens
  | b :: iov, b' :: iov', i, f, g, hlens, hoff, hok, hks => by
    obtain ⟨hlen, hlens⟩ := List.cons.inj hlens
    cases hk : w.answer i f b.length with
    | none =>
      rw [writes_none hk] at hok
      nomatch hok
    | some k =>
      rw [writes_some hk] at hok hks ⊢
      have hle := w.le hk
      have hcap : ks[i]? = some k := hks 0
      have hsame : (replay ks).answer i g b'.length = some k := by
        have hmin : min k b'.length = k := by
          rw [hlen]
          exact Nat.min_eq_left hle
        have hlt : g.offset + k < 2 ^ 63 := hoff ▸ w.offset hk
        show moveUpTo ks[i]? g b'.length = some k
        rw [hcap]
        show (if g.offset + min k b'.length < 2 ^ 63 then some (min k b'.length) else none) = some k
        rw [hmin, if_pos hlt]
      rw [writes_some hsame]
      have hoff' : (g.put (b'.take k)).offset = (f.put (b.take k)).offset := by
        rw [OpenFile.put_offset, OpenFile.put_offset, List.length_take, List.length_take, hlen, hoff]
      refine congrArg (Calls.after k) (writes_replay iov iov' (i + 1) _ _ hlens hoff' hok fun j => ?_)
      have hnext := hks (j + 1)
      rw [Nat.add_right_comm, Nat.add_assoc]
      exact hnext

/-- **`my_writev` that returns a count** has written that many bytes, and the beginning of the data
    if no write moved anything behind a short one.  If one did, the same calls write something else
    for some contents of the buffers. -/
theorem myWritev_beginning {w : Writes} {iov : List (List UInt8)} {f f' : OpenFile} {t : Nat}
    (h : myWritev w iov f = ((t : Int), f')) :
    t ≤ iov.flatten.length ∧
      (Gapless (writes w 0 iov f).counts iov → f' = f.put (iov.flatten.take t)) ∧
      (Gapless (writes w 0 iov f).counts iov ↔
        ∀ iov' : List (List UInt8), iov'.map List.length = iov.map List.length →
          myWritev (replay (writes w 0 iov f).counts) iov' f =
            ((t : Int), f.put (iov'.flatten.take t))) := by
  have htaken := writes_taken w iov 0 f
  rw [myWritev_eq, Prod.mk.injEq] at h
  obtain ⟨hres, rfl⟩ := h
  obtain ⟨hok, ht⟩ := Calls.result_natCast hres
  rw [Nat.zero_add] at ht
  subst ht
  have hreplay : ∀ iov' : List (List UInt8), iov'.map List.length = iov.map List.length →
      writes (replay (writes w 0 iov f).counts) 0 iov' f = writes w 0 iov f :=
    fun iov' hlens => writes_replay iov iov' 0 f f hlens rfl hok fun j => by rw [Nat.zero_add]
  have hrun : ∀ iov' : List (List UInt8), iov'.map List.length = iov.map List.length →
      myWritev (replay (writes w 0 iov f).counts) iov' f =
        (((writes w 0 iov f).counts.sum : Int), f.put (gathered (writes w 0 iov f).counts iov')) := by
    intro iov' hlens
    rw [myWritev_eq, hreplay iov' hlens, hres]
  refine ⟨htaken.sum_le, fun hgap => by rw [htaken.gathered_gapless hgap], ?_, ?_⟩
  · intro hgap iov' hlens
    have htaken' := writes_taken (replay (writes w 0 iov f).counts) iov' 0 f
    rw [hreplay iov' hlens] at htaken'
    rw [hrun iov' hlens, htaken'.gathered_gapless (hgap.congr hlens)]
  · intro hall
    by_contra hgap
    obtain ⟨iov', hlens, hne⟩ := htaken.gap_shows hgap
    have htaken' := writes_taken (replay (writes w 0 iov f).counts) iov' 0 f
    rw [hreplay iov' hlens] at htaken'
    have heq := (hrun iov' hlens).symm.trans (hall iov' hlens)
    refine hne (OpenFile.put_inj ?_ (Prod.mk.inj heq).2)
    rw [htaken'.length_gathered, List.length_take, Nat.min_eq_left htaken'.sum_le]

/-- Three bytes of which the kernel takes two: one full write, one short write. -/
theorem myWritev_beginning_two :
    2 ≤ [[97], [98, 99]].flatten.length (α := UInt8) ∧
      OpenFile.mk [97, 98] 2 = (OpenFile.mk [] 0).put ([[97], [98, 99]].flatten.take 2) := by
  obtain ⟨hle, hdata, -⟩ := myWritev_beginning (w := Writes.upTo fun _ _ => some 1) (t := 2)
    (show myWritev _ [[97], [98, 99]] ⟨[], 0⟩ = (_, ⟨[97, 98], 2⟩) by decide +kernel)
  exact ⟨hle, hdata (by unfold Gapless; decide +kernel)⟩

/-- A short write in the middle: of `ab` and `c`, written by a kernel that takes one byte a call,
    `ac` reaches the file, which is not how the data begins. -/
theorem myWritev_leaves_gap :
    myWritev (Writes.upTo fun _ _ => some 1) [[97, 98], [99]] ⟨[], 0⟩ = (2, ⟨[97, 99], 2⟩) ∧
      (OpenFile.mk [] 0).put ([[97, 98], [99]].flatten.take 2) = ⟨[97, 98], 2⟩ := by
  decide +kernel

/-! ## Failure -/

/-- `-1` does not mean that nothing has moved.  It does exactly where none of the calls before the
    failed one moved anything. -/
theorem failed_moves_nothing_iff (w : Writes) (r : Reads) (iov : List (List UInt8))
    (f : OpenFile) :
    ((myWritev w iov f).1 = -1 →
      ((myWritev w iov f).2 = f ↔ ∀ k ∈ (writes w 0 iov f).counts, k = 0)) ∧
    ((myReadv r iov f).1 = -1 →
      ((myReadv r iov f).2.2 = f ↔ ∀ k ∈ (reads r 0 iov f).counts, k = 0)) := by
  constructor
  · intro _
    rw [myWritev_eq, OpenFile.put_eq_self_iff, ← List.length_eq_zero_iff,
      (writes_taken w iov 0 f).length_gathered, List.sum_eq_zero_iff_forall_eq_nat]
  · intro _
    rw [myReadv_eq, OpenFile.skip_eq_self_iff, List.sum_eq_zero_iff_forall_eq_nat]

/-- Calls of which the first one fails leave the file as it is. -/
theorem failed_at_once_moves_nothing :
    (myWritev (Writes.upTo fun _ _ => none) [[97], [98]] ⟨[99], 0⟩).2 = ⟨[99], 0⟩ ∧
      (myReadv (Reads.upTo fun _ _ => none) [[97], [98]] ⟨[99], 0⟩).2.2 = ⟨[99], 0⟩ :=
  have h := failed_moves_nothing_iff (Writes.upTo fun _ _ => none) (Reads.upTo fun _ _ => none)
    [[97], [98]] ⟨[99], 0⟩
  ⟨(h.1 (by decide +kernel)).mpr (by decide +kernel),
    (h.2 (by decide +kernel)).mpr (by decide +kernel)⟩

/-- The first call moves a byte, the second one fails: the result is `-1`, and a byte has been
    written, or read. -/
theorem failed_after_moving :
    myWritev (Writes.upTo fun i _ => if i = 0 then some 1 else none) [[97], [98]] ⟨[], 0⟩ =
        (-1, ⟨[97], 1⟩) ∧
      myReadv (Reads.upTo fun i _ => if i = 0 then some 1 else none) [[0], [0]] ⟨[97, 98], 0⟩ =
        (-1, [[97], [0]], ⟨[97, 98], 1⟩) := by
  decide +kernel

/-! ## Round trip -/

/-- Full buffers and one that is filled in part: the beginning of the stream, then what stood
    there. -/
theorem Fills.flatten_scattered (h : Fills ks iov) :
    ∀ s : List UInt8, ks.sum ≤ s.length →
      (scattered ks s iov).flatten = s.take ks.sum ++ iov.flatten.drop ks.sum := by
  induction h with
  | stop iov =>
    intro s _
    simp
  | @last k b iov hk =>
    intro s _
    simp [scattered, List.drop_append_of_le_length hk]
  | @full b ks iov _ ih =>
    intro s hs
    rw [List.sum_cons] at hs
    have hrest : ks.sum ≤ (s.drop b.length).length := by rw [List.length_drop]; omega
    rw [scattered, List.flatten_cons, List.flatten_cons, ih _ hrest, List.drop_length,
      List.append_nil, List.sum_cons, List.take_add, List.drop_length_add_append,
      List.append_assoc]

/-- A regular file fills the buffers as far as it has bytes. -/
theorem reads_regular (iov : List (List UInt8)) :
    ∀ (i : Nat) (f : OpenFile), f.offset + f.rest.length < 2 ^ 63 →
      (reads Reads.regular i iov f).failed = false ∧
      (reads Reads.regular i iov f).counts.sum = min f.rest.length iov.flatten.length := by
  induction iov with
  | nil =>
    intro i f _
    simp [reads]
  | cons b iov ih =>
    intro i f hf
    have hanswer := Reads.regular_answer hf i b.length
    rw [List.flatten_cons, List.length_append]
    by_cases hshort : f.rest.length < b.length
    · rw [Nat.min_eq_right (by omega)] at hanswer
      rw [reads_short hanswer hshort, List.sum_singleton]
      exact ⟨rfl, by omega⟩
    · rw [Nat.min_eq_left (by omega)] at hanswer
      have hrest : (f.skip b.length).rest.length = f.rest.length - b.length := by
        rw [OpenFile.rest_skip, List.length_drop]
      have hf' : (f.skip b.length).offset + (f.skip b.length).rest.length < 2 ^ 63 := by
        rw [hrest]
        show f.offset + b.length + (f.rest.length - b.length) < 2 ^ 63
        omega
      obtain ⟨hfailed, hsum⟩ := ih (i + 1) _ hf'
      rw [reads_full hanswer, Calls.after_failed, Calls.after_counts, List.sum_cons]
      exact ⟨hfailed, by omega⟩

/-- The offset stays an `off_t`. -/
theorem writes_offset (w : Writes) (iov : List (List UInt8)) :
    ∀ (i : Nat) (f : OpenFile), f.offset < 2 ^ 63 →
      f.offset + (writes w i iov f).counts.sum < 2 ^ 63 := by
  induction iov with
  | nil => exact fun _ _ hf => hf
  | cons b iov ih =>
    intro i f hf
    cases hk : w.answer i f b.length with
    | none =>
      rw [writes_none hk]
      exact hf
    | some k =>
      have hput : (f.put (b.take k)).offset = f.offset + k := by
        rw [OpenFile.put_offset, List.length_take, Nat.min_eq_left (w.le hk)]
      have hrest := ih (i + 1) (f.put (b.take k)) (by rw [hput]; exact w.offset hk)
      rw [hput] at hrest
      rw [writes_some hk, Calls.after_counts, List.sum_cons]
      omega

/-- Full writes write everything. -/
theorem gathered_full (iov : List (List UInt8)) :
    gathered (iov.map List.length) iov = iov.flatten := by
  induction iov with
  | nil => rfl
  | cons b iov ih => simp [ih]

/-- What `my_writev` writes to an empty file that takes every write in full is what `my_readv` then
    reads, as much of it as there is room for, in whatever pieces the two are given. -/
theorem readv_of_writev {w : Writes} {W : List (List UInt8)} (R : List (List UInt8))
    (hw : writes w 0 W ⟨[], 0⟩ = ⟨W.map List.length, false⟩) :
    (myWritev w W ⟨[], 0⟩).1 = (W.flatten.length : Int) ∧
      (myReadv Reads.regular R ⟨(myWritev w W ⟨[], 0⟩).2.bytes, 0⟩).1 =
        (min W.flatten.length R.flatten.length : Nat) ∧
      (myReadv Reads.regular R ⟨(myWritev w W ⟨[], 0⟩).2.bytes, 0⟩).2.1.flatten =
        W.flatten.take (min W.flatten.length R.flatten.length) ++
          R.flatten.drop (min W.flatten.length R.flatten.length) := by
  have hsum : (W.map List.length).sum = W.flatten.length := List.length_flatten.symm
  have hlt := writes_offset w W 0 ⟨[], 0⟩ (by decide)
  rw [hw, hsum] at hlt
  have hwrite : myWritev w W ⟨[], 0⟩ = ((W.flatten.length : Int), ⟨W.flatten, W.flatten.length⟩) := by
    rw [myWritev_eq, hw, gathered_full, OpenFile.put_empty, ← hsum]
    simp [Calls.result]
  rw [hwrite]
  have hrest : (OpenFile.mk W.flatten 0).rest = W.flatten := rfl
  obtain ⟨hfailed, hread⟩ := reads_regular R 0 ⟨W.flatten, 0⟩ hlt
  have hfills := reads_fills Reads.regular R 0 ⟨W.flatten, 0⟩
  have hflat := hfills.flatten_scattered W.flatten (reads_sum_le Reads.regular R 0 ⟨W.flatten, 0⟩)
  rw [hrest] at hread
  rw [hread] at hflat
  rw [myReadv_eq]
  refine ⟨rfl, ?_, hflat⟩
  simp [Calls.result, hfailed, hread]

/-- Written as `ab`, nothing and `c`, read as one byte and three. -/
theorem readv_of_writev_abc :
    (myWritev Writes.regular [[97, 98], [], [99]] ⟨[], 0⟩).1 = 3 ∧
      (myReadv Reads.regular [[0], [0, 0, 0]] ⟨[97, 98, 99], 0⟩).1 = 3 ∧
      (myReadv Reads.regular [[0], [0, 0, 0]] ⟨[97, 98, 99], 0⟩).2.1.flatten = [97, 98, 99, 0] :=
  readv_of_writev (w := Writes.regular) (W := [[97, 98], [], [99]]) [[0], [0, 0, 0]] rfl

end LinuxInterface.Vectored
