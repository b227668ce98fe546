/-
  The lines of a text.

  A text is a list over any type with one symbol `nl` that ends a line; behind the last `nl` there
  may be an unfinished line.  `lines` cuts the text, `lastLines n` puts its last `n` lines together;
  `firstLine` is what a reader that goes forwards takes at a time (`getD_lines`).

  Seen from the end of the text, `backTo n` is the place behind the `(n + 1)`-th `nl`, or the
  beginning of the text if there is none.  Its equations are those of a reader that goes backwards
  (`backTo_concat_ne`, `backTo_concat_zero`, `backTo_concat_succ`); `drop_backTo` says which lines
  stand behind that place.
-/
import Mathlib.Data.List.Induction
import Mathlib.Logic.Function.Iterate

namespace LinuxInterface

variable {α : Type} {nl : α}

/-! ## Lines -/

/-- One more symbol in front of the first line. -/
def growLine (c : α) : List (List α) → List (List α)
  | [] => [[c]]
  | l :: ls => (c :: l) :: ls

/-- Only the first line grows. -/
theorem growLine_append (c : α) {ls : List (List α)} (h : ls ≠ []) (ms : List (List α)) :
    growLine c (ls ++ ms) = growLine c ls ++ ms := by
  obtain ⟨l, ls, rfl⟩ := List.exists_cons_of_ne_nil h
  rfl

/-- The text grows by the symbol. -/
theorem flatten_growLine (c : α) (ls : List (List α)) :
    (growLine c ls).flatten = c :: ls.flatten := by
  cases ls <;> rfl

/-- The text has no unfinished line. -/
def Finished (nl : α) (s : List α) : Prop := s = [] ∨ s.getLast? = some nl

/-- Whether the last line is finished does not depend on what stands before it. -/
theorem finished_cons_iff {c : α} {s : List α} (h : s ≠ []) :
    Finished nl (c :: s) ↔ Finished nl s := by
  obtain ⟨d, t, rfl⟩ := List.exists_cons_of_ne_nil h
  simp [Finished]

theorem finished_append_iff (s : List α) {t : List α} (h : t ≠ []) :
    Finished nl (s ++ t) ↔ Finished nl t := by
  induction s with
  | nil => rfl
  | cons c s ih => rw [List.cons_append, finished_cons_iff (by simp [h]), ih]

/-- An empty line in front is a finished one. -/
theorem finished_nl_cons (s : List α) : Finished nl (nl :: s) ↔ Finished nl s := by
  cases s with
  | nil => simp [Finished]
  | cons c s => exact finished_cons_iff (List.cons_ne_nil _ _)

variable [DecidableEq α]

/-- The lines of a text, each with the `nl` that ends it. -/
def lines (nl : α) : List α → List (List α)
  | [] => []
  | c :: s => if c = nl then [c] :: lines nl s else growLine c (lines nl s)

instance (s : List α) : Decidable (Finished nl s) :=
  inferInstanceAs (Decidable (s = [] ∨ s.getLast? = some nl))

/-- The last `n` lines of a text, all of them if it has fewer. -/
def lastLines (nl : α) (n : Nat) (s : List α) : List α :=
  ((lines nl s).drop ((lines nl s).length - n)).flatten

/-- The lines put together are the text. -/
theorem flatten_lines (nl : α) (s : List α) : (lines nl s).flatten = s := by
  induction s with
  | nil => rfl
  | cons c s ih =>
    rw [lines]
    split
    · rw [List.flatten_cons, ih]
      rfl
    · rw [flatten_growLine, ih]

theorem lines_ne_nil (nl : α) {s : List α} (h : s ≠ []) : lines nl s ≠ [] := by
  intro hnil
  have hflat := flatten_lines nl s
  rw [hnil] at hflat
  exact h hflat.symm

/-- A line has at least one symbol, its `nl` or another one. -/
theorem ne_nil_of_mem_lines {s l : List α} (h : l ∈ lines nl s) : l ≠ [] := by
  induction s generalizing l with
  | nil => nomatch h
  | cons c s ih =>
    rw [lines] at h
    split at h
    · rcases List.mem_cons.mp h with rfl | h
      · exact List.cons_ne_nil _ _
      · exact ih h
    · cases hls : lines nl s with
      | nil =>
        rw [hls, growLine, List.mem_singleton] at h
        exact h ▸ List.cons_ne_nil _ _
      | cons k ks =>
        rw [hls, growLine] at h
        rcases List.mem_cons.mp h with rfl | h
        · exact List.cons_ne_nil _ _
        · exact ih (hls ▸ List.mem_cons_of_mem k h)

/-- A line ends at its `nl`, whatever follows. -/
theorem lines_append (s t : List α) :
    lines nl (s ++ nl :: t) = lines nl (s ++ [nl]) ++ lines nl t := by
  induction s with
  | nil => simp [lines]
  | cons c s ih =>
    by_cases hc : c = nl
    · simp [lines, hc, ih]
    · have hne : lines nl (s ++ [nl]) ≠ [] := lines_ne_nil nl (by simp)
      rw [List.cons_append, List.cons_append, lines, lines, if_neg hc, if_neg hc, ih,
        growLine_append c hne]

/-- The first line of a text, with its `nl` if there is one. -/
def firstLine (nl : α) : List α → List α
  | [] => []
  | c :: s => if c = nl then [c] else c :: firstLine nl s

/-- The first line ends with the first `nl`. -/
theorem firstLine_of_mem {s : List α} (hs : nl ∉ s) (t : List α) :
    firstLine nl (s ++ nl :: t) = s ++ [nl] := by
  induction s with
  | nil => simp [firstLine]
  | cons c s ih =>
    have hc : c ≠ nl := fun h => hs (h ▸ List.mem_cons_self)
    rw [List.cons_append, firstLine, if_neg hc, ih fun h => hs (List.mem_cons_of_mem c h),
      List.cons_append]

/-- Without one it is all there is. -/
theorem firstLine_of_not_mem {s : List α} (hs : nl ∉ s) : firstLine nl s = s := by
  induction s with
  | nil => rfl
  | cons c s ih =>
    have hc : c ≠ nl := fun h => hs (h ▸ List.mem_cons_self)
    rw [firstLine, if_neg hc, ih fun h => hs (List.mem_cons_of_mem c h)]

/-- The first line and those of the rest. -/
theorem lines_eq_cons (nl : α) {s : List α} (h : s ≠ []) :
    lines nl s = firstLine nl s :: lines nl (s.drop (firstLine nl s).length) := by
  induction s with
  | nil => exact absurd rfl h
  | cons c s ih =>
    rw [lines, firstLine]
    split
    · rfl
    · rw [List.length_cons, List.drop_succ_cons]
      by_cases hs : s = []
      · subst hs
        rfl
      · rw [ih hs]
        rfl

/-- Line by line. -/
theorem getD_lines (nl : α) (s : List α) (i : Nat) :
    (lines nl s).getD i [] = firstLine nl ((fun s => s.drop (firstLine nl s).length)^[i] s) := by
  induction i generalizing s with
  | zero =>
    by_cases hs : s = []
    · subst hs
      rfl
    · rw [lines_eq_cons nl hs]
      rfl
  | succ i ih =>
    rw [Function.iterate_succ_apply, ← ih]
    by_cases hs : s = []
    · subst hs
      rfl
    · rw [lines_eq_cons nl hs, List.getD_cons_succ]

/-- There are as many lines as `nl`s, and one more if the last is unfinished. -/
theorem length_lines (nl : α) (s : List α) :
    (lines nl s).length = s.count nl + if Finished nl s then 0 else 1 := by
  induction s with
  | nil => simp [lines, Finished]
  | cons c s ih =>
    by_cases hc : c = nl
    · subst hc
      simp only [lines, if_true, List.length_cons, List.count_cons_self, ih, finished_nl_cons]
      omega
    · rw [lines, if_neg hc, List.count_cons_of_ne hc]
      by_cases hs : s = []
      · subst hs
        simp [lines, growLine, Finished, hc]
      · obtain ⟨l, ls, hls⟩ := List.exists_cons_of_ne_nil (lines_ne_nil nl hs)
        rw [hls] at ih ⊢
        simp only [growLine, List.length_cons, finished_cons_iff hs] at ih ⊢
        exact ih

/-! ## The last lines -/

/-- A text of no more lines than asked for is taken as a whole. -/
theorem lastLines_of_length_le {n : Nat} {s : List α} (h : (lines nl s).length ≤ n) :
    lastLines nl n s = s := by
  rw [lastLines, Nat.sub_eq_zero_of_le h, List.drop_zero, flatten_lines]

/-- The lines behind an `nl`. -/
theorem lastLines_append (s t : List α) :
    lastLines nl (lines nl t).length (s ++ nl :: t) = t := by
  rw [lastLines, lines_append, List.length_append, Nat.add_sub_cancel, List.drop_left,
    flatten_lines]

/-- One line more makes a difference as long as there is one more. -/
theorem lastLines_succ_eq_iff {n : Nat} {s : List α} :
    lastLines nl (n + 1) s = lastLines nl n s ↔ (lines nl s).length ≤ n := by
  constructor
  · intro h
    by_contra hlt
    have hk : (lines nl s).length - (n + 1) < (lines nl s).length := by omega
    have hsucc : (lines nl s).length - (n + 1) + 1 = (lines nl s).length - n := by omega
    unfold lastLines at h
    rw [List.drop_eq_getElem_cons hk, hsucc, List.flatten_cons] at h
    exact ne_nil_of_mem_lines (List.getElem_mem hk) (List.append_left_eq_self.mp h)
  · intro h
    rw [lastLines_of_length_le h, lastLines_of_length_le (Nat.le_succ_of_le h)]

/-! ## Backwards from the end -/

/-- The places behind the `nl`s of a text, from the left. -/
def lineEnds (nl : α) (s : List α) : List Nat :=
  (s.zipIdx.filter fun x => x.1 = nl).map fun x => x.2 + 1

/-- The place behind the `(n + 1)`-th `nl` from the end, or `0`. -/
def backTo (nl : α) (n : Nat) (s : List α) : Nat := ((lineEnds nl s).reverse[n]?).getD 0

/-- An `nl` at the end adds the end of one more line. -/
theorem lineEnds_concat_nl (s : List α) :
    lineEnds nl (s ++ [nl]) = lineEnds nl s ++ [s.length + 1] := by
  simp [lineEnds, List.zipIdx_append]

theorem lineEnds_concat_ne {c : α} (h : c ≠ nl) (s : List α) :
    lineEnds nl (s ++ [c]) = lineEnds nl s := by
  simp [lineEnds, List.zipIdx_append, h]

@[simp] theorem backTo_nil (n : Nat) : backTo nl n [] = 0 := rfl

/-- Going backwards over a symbol that is not `nl` changes nothing. -/
theorem backTo_concat_ne {c : α} (h : c ≠ nl) (n : Nat) (s : List α) :
    backTo nl n (s ++ [c]) = backTo nl n s := by
  rw [backTo, lineEnds_concat_ne h, backTo]

/-- The `nl` looked for has been found. -/
theorem backTo_concat_zero (s : List α) : backTo nl 0 (s ++ [nl]) = s.length + 1 := by
  simp [backTo, lineEnds_concat_nl]

/-- One `nl` less to find. -/
theorem backTo_concat_succ (n : Nat) (s : List α) :
    backTo nl (n + 1) (s ++ [nl]) = backTo nl n s := by
  simp [backTo, lineEnds_concat_nl]

/-- Either the text has at most `n` `nl`s, or it is cut where `n` of them follow. -/
theorem backTo_cases (nl : α) (s : List α) : ∀ n : Nat,
    (s.count nl ≤ n ∧ backTo nl n s = 0) ∨
      ∃ t u, s = t ++ nl :: u ∧ u.count nl = n ∧ backTo nl n s = t.length + 1 := by
  induction s using List.reverseRecOn with
  | nil => exact fun n => .inl ⟨Nat.zero_le n, rfl⟩
  | append_singleton s c ih =>
    intro n
    by_cases hc : c = nl
    · subst hc
      cases n with
      | zero => exact .inr ⟨s, [], rfl, rfl, backTo_concat_zero s⟩
      | succ n =>
        rw [backTo_concat_succ]
        rcases ih n with ⟨hcount, hzero⟩ | ⟨t, u, rfl, hcount, hback⟩
        · exact .inl ⟨by simpa using hcount, hzero⟩
        · exact .inr ⟨t, u ++ [c], by simp, by simpa using hcount, hback⟩
    · rw [backTo_concat_ne hc]
      rcases ih n with ⟨hcount, hzero⟩ | ⟨t, u, rfl, hcount, hback⟩
      · exact .inl ⟨by simpa [List.count_append, hc] using hcount, hzero⟩
      · exact .inr ⟨t, u ++ [c], by simp, by simpa [List.count_append, hc] using hcount, hback⟩

/-- Behind the `(n + 1)`-th `nl` from the end there are `n` lines, and the unfinished one if the
    text has one. -/
theorem drop_backTo (n : Nat) (s : List α) :
    s.drop (backTo nl n s) = lastLines nl (n + if Finished nl s then 0 else 1) s := by
  rcases backTo_cases nl s n with ⟨hcount, hzero⟩ | ⟨t, u, rfl, hcount, hback⟩
  · have hlen := length_lines nl s
    rw [hzero, List.drop_zero, lastLines_of_length_le (by omega)]
  · have hlen := length_lines nl u
    have hfin : Finished nl (t ++ nl :: u) ↔ Finished nl u :=
      (finished_append_iff t (List.cons_ne_nil _ _)).trans (finished_nl_cons u)
    rw [hcount] at hlen
    rw [hback, if_congr hfin rfl rfl, ← hlen, lastLines_append]
    simp

end LinuxInterface
