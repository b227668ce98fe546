/-
  What programs read and write: a stream with `fgets`, messages, and the status at the end.

  `fgets(buf, n, stream)` takes bytes up to and with the next newline, but no more than `n - 1`.  A
  stream is the list of bytes that are still to come, and a loop over it sees its `pieces`: they
  are the stream cut up (`flatten_pieces`), a line that is too long in several of them.  The buffer
  gets a terminator behind the piece, and what the program then takes for the string in it ends at
  the first zero, be that the terminator or a byte of the piece (`cstring`).
-/
import Mathlib.Data.List.Basic
import Mathlib.Data.List.TakeWhile

namespace LinuxInterface

def EXIT_SUCCESS : Nat := 0
def EXIT_FAILURE : Nat := 1

/-- What a program writes; `perror` adds the text of `errno`. -/
inductive Msg where
  | stdout (text : List UInt8)
  | stderr (text : List UInt8)
  | perror (text : List UInt8)

/-- `'\n'`. -/
def LF : UInt8 := 10

/-- `'\t'`. -/
def TAB : UInt8 := 9

/-- The string that a buffer with these bytes in front of its terminator holds. -/
def cstring (buffer : List UInt8) : List UInt8 := buffer.takeWhile (· ≠ 0)

/-- What there is to a line, in at most `room` bytes. -/
def takeLine : Nat → List UInt8 → List UInt8
  | 0, _ => []
  | _ + 1, [] => []
  | room + 1, c :: s => if c = LF then [c] else c :: takeLine room s

/-- `fgets(buf, n, stream)`: the piece and the rest of the stream, or `NULL` at its end. -/
def fgets (n : Nat) (s : List UInt8) : Option (List UInt8 × List UInt8) :=
  if s = [] then none
  else some (takeLine (n - 1) s, s.drop (takeLine (n - 1) s).length)

/-- At most `k` calls of `fgets`. -/
def piecesN (n : Nat) : Nat → List UInt8 → List (List UInt8)
  | 0, _ => []
  | k + 1, s =>
    match fgets n s with
    | none => []
    | some (piece, rest) => piece :: piecesN n k rest

/-- The pieces that a loop over `fgets(buf, n, stream)` sees. -/
def pieces (n : Nat) (s : List UInt8) : List (List UInt8) := piecesN n s.length s

variable {n m room : Nat} {s p : List UInt8} {c : UInt8}

/-! ## One call -/

theorem takeLine_isPrefix (room : Nat) (s : List UInt8) : takeLine room s <+: s := by
  induction s generalizing room with
  | nil => cases room <;> exact List.nil_prefix
  | cons c s ih =>
    cases room with
    | zero => exact List.nil_prefix
    | succ room =>
      rw [takeLine]
      split
      · exact (List.prefix_cons_inj c).mpr List.nil_prefix
      · exact (List.prefix_cons_inj c).mpr (ih room)

theorem takeLine_append_drop (room : Nat) (s : List UInt8) :
    takeLine room s ++ s.drop (takeLine room s).length = s :=
  (List.prefix_iff_eq_append.mp (takeLine_isPrefix room s))

theorem takeLine_ne_nil (hroom : 0 < room) (hs : s ≠ []) : takeLine room s ≠ [] := by
  obtain ⟨room, rfl⟩ := Nat.exists_eq_succ_of_ne_zero (Nat.pos_iff_ne_zero.mp hroom)
  cases s with
  | nil => exact absurd rfl hs
  | cons c s =>
    rw [takeLine]
    split <;> simp

/-- A line that fits, with its newline, is taken as it is. -/
theorem takeLine_line (hs : LF ∉ s) (hroom : s.length < room) (rest : List UInt8) :
    takeLine room (s ++ LF :: rest) = s ++ [LF] := by
  induction s generalizing room with
  | nil =>
    obtain ⟨room, rfl⟩ := Nat.exists_eq_succ_of_ne_zero (Nat.ne_of_gt hroom)
    exact if_pos rfl
  | cons c s ih =>
    obtain ⟨room, rfl⟩ := Nat.exists_eq_succ_of_ne_zero (Nat.ne_of_gt (Nat.zero_lt_of_lt hroom))
    have hc : c ≠ LF := fun h => hs (by simp [h])
    rw [List.cons_append, takeLine, if_neg hc, ih (fun h => hs (by simp [h]))
      (Nat.lt_of_succ_lt_succ hroom)]
    rfl

/-- A last line without a newline. -/
theorem takeLine_last (hs : LF ∉ s) (hroom : s.length ≤ room) : takeLine room s = s := by
  induction s generalizing room with
  | nil => cases room <;> rfl
  | cons c s ih =>
    obtain ⟨room, rfl⟩ := Nat.exists_eq_succ_of_ne_zero (Nat.ne_of_gt (Nat.zero_lt_of_lt hroom))
    have hc : c ≠ LF := fun h => hs (by simp [h])
    rw [takeLine, if_neg hc, ih (fun h => hs (by simp [h])) (Nat.le_of_succ_le_succ hroom)]

/-- What comes behind a newline does not matter. -/
theorem takeLine_append (hs : LF ∈ s) (rest : List UInt8) :
    takeLine room (s ++ rest) = takeLine room s := by
  induction s generalizing room with
  | nil => exact absurd hs List.not_mem_nil
  | cons c s ih =>
    cases room with
    | zero => rfl
    | succ room =>
      rw [List.cons_append, takeLine, takeLine]
      by_cases hc : c = LF
      · rw [if_pos hc, if_pos hc]
      · have hs' : LF ∈ s := (List.mem_cons.mp hs).resolve_left fun h => hc h.symm
        rw [if_neg hc, if_neg hc, ih hs']

/-- A stream that ends early. -/
theorem takeLine_take (room k : Nat) (s : List UInt8) :
    takeLine room (s.take k) = (takeLine room s).take k := by
  induction s generalizing room k with
  | nil => cases room <;> simp [takeLine]
  | cons c s ih =>
    cases room with
    | zero => simp [takeLine]
    | succ room =>
      cases k with
      | zero => simp [takeLine]
      | succ k =>
        rw [List.take_succ_cons, takeLine, takeLine]
        split
        · simp
        · rw [List.take_succ_cons, ih]

/-! ## All of them -/

theorem fgets_of_ne_nil (hs : s ≠ []) :
    fgets n s = some (takeLine (n - 1) s, s.drop (takeLine (n - 1) s).length) := if_neg hs

theorem drop_takeLine_lt (hn : 1 < n) (hs : s ≠ []) :
    (s.drop (takeLine (n - 1) s).length).length < s.length := by
  have hpos := List.length_pos_iff.mpr (takeLine_ne_nil (by omega : 0 < n - 1) hs)
  have hlen := List.length_pos_iff.mpr hs
  rw [List.length_drop]
  omega

theorem pieces_nil : pieces n [] = [] := rfl

theorem piecesN_nil (k : Nat) : piecesN n k [] = [] := by cases k <;> rfl

/-- As many calls as there are bytes are enough. -/
theorem piecesN_eq (hn : 1 < n) {k : Nat} (hk : s.length ≤ k) : piecesN n k s = pieces n s := by
  induction k using Nat.strongRecOn generalizing s with
  | ind k ih =>
    by_cases hs : s = []
    · rw [hs, piecesN_nil, pieces_nil]
    · have hlt := drop_takeLine_lt hn hs
      obtain ⟨k, rfl⟩ := Nat.exists_eq_succ_of_ne_zero (by omega : k ≠ 0)
      obtain ⟨l, hl⟩ := Nat.exists_eq_succ_of_ne_zero (by omega : s.length ≠ 0)
      unfold pieces
      rw [hl, piecesN, piecesN, fgets_of_ne_nil hs]
      dsimp only
      rw [ih k (by omega) (by omega)]
      by_cases hkl : l = k
      · rw [hkl, ih k (by omega) (by omega)]
      · rw [ih l (by omega) (by omega)]

theorem pieces_cons (hn : 1 < n) (hs : s ≠ []) :
    pieces n s = takeLine (n - 1) s :: pieces n (s.drop (takeLine (n - 1) s).length) := by
  have hlt := drop_takeLine_lt hn hs
  obtain ⟨l, hl⟩ := Nat.exists_eq_succ_of_ne_zero (by omega : s.length ≠ 0)
  conv_lhs => rw [pieces, hl, piecesN, fgets_of_ne_nil hs]
  dsimp only
  rw [piecesN_eq hn (by omega)]

theorem eq_of_fgets {rest : List UInt8} (h : fgets n s = some (p, rest)) :
    s ≠ [] ∧ p = takeLine (n - 1) s ∧ rest = s.drop (takeLine (n - 1) s).length := by
  have hs : s ≠ [] := by
    rintro rfl
    nomatch h
  rw [fgets_of_ne_nil hs] at h
  obtain ⟨rfl, rfl⟩ := Prod.mk.inj (Option.some.inj h)
  exact ⟨hs, rfl, rfl⟩

/-- A call that gets a piece, and the pieces of what is left. -/
theorem pieces_of_fgets {rest : List UInt8} (hn : 1 < n) (h : fgets n s = some (p, rest)) :
    pieces n s = p :: pieces n rest := by
  obtain ⟨hs, rfl, rfl⟩ := eq_of_fgets h
  exact pieces_cons hn hs

theorem length_of_fgets {rest : List UInt8} (hn : 1 < n) (h : fgets n s = some (p, rest)) :
    rest.length < s.length := by
  obtain ⟨hs, -, rfl⟩ := eq_of_fgets h
  exact drop_takeLine_lt hn hs

theorem eq_nil_of_fgets (h : fgets n s = none) : s = [] := by
  by_contra hs
  rw [fgets_of_ne_nil hs] at h
  nomatch h

/-- Induction over the pieces of a stream. -/
theorem pieces_induction (hn : 1 < n) {P : List UInt8 → Prop} (nil : P [])
    (cons : ∀ s, s ≠ [] → P (s.drop (takeLine (n - 1) s).length) → P s) (s : List UInt8) : P s := by
  induction hlen : s.length using Nat.strongRecOn generalizing s with
  | ind l ih =>
    by_cases hs : s = []
    · rw [hs]
      exact nil
    · exact cons s hs (ih _ (hlen ▸ drop_takeLine_lt hn hs) _ rfl)

/-- The pieces are the stream cut up. -/
theorem flatten_pieces (hn : 1 < n) (s : List UInt8) : (pieces n s).flatten = s := by
  induction s using pieces_induction hn with
  | nil => rfl
  | cons s hs ih => rw [pieces_cons hn hs, List.flatten_cons, ih, takeLine_append_drop]

/-- A line that fits is a piece. -/
theorem pieces_line (hs : LF ∉ s) (hlen : s.length + 1 < n) (rest : List UInt8) :
    pieces n (s ++ LF :: rest) = (s ++ [LF]) :: pieces n rest := by
  have hline := takeLine_line hs (by omega : s.length < n - 1) rest
  rw [pieces_cons (by omega) (by simp), hline]
  simp

theorem pieces_last (hs : LF ∉ s) (hne : s ≠ []) (hlen : s.length < n) : pieces n s = [s] := by
  have hpos := List.length_pos_iff.mpr hne
  rw [pieces_cons (by omega) hne, takeLine_last hs (by omega), List.drop_length]
  rfl

/-- Lines, the last of which has its newline, are cut on their own. -/
theorem pieces_append (hn : 1 < n) (hs : s = [] ∨ s.getLast? = some LF) (rest : List UInt8) :
    pieces n (s ++ rest) = pieces n s ++ pieces n rest := by
  induction s using pieces_induction hn with
  | nil => rfl
  | cons s hne ih =>
    have hlast := hs.resolve_left hne
    -- the first piece ends at a newline of `s`, and what is left of `s` still ends with one
    have hmem : LF ∈ s := List.mem_of_getLast? hlast
    have hle := (takeLine_isPrefix (n - 1) s).length_le
    have hrest : s.drop (takeLine (n - 1) s).length = [] ∨
        (s.drop (takeLine (n - 1) s).length).getLast? = some LF := by
      by_cases hnil : s.drop (takeLine (n - 1) s).length = []
      · exact .inl hnil
      · right
        rw [List.getLast?_drop, if_neg, hlast]
        exact fun h => hnil (List.drop_eq_nil_iff.mpr h)
    rw [pieces_cons hn (by simp [hne]), takeLine_append hmem, List.drop_append_of_le_length hle,
      ih hrest, pieces_cons hn hne, List.cons_append]

/-- The pieces of a stream that ends early begin as pieces of the whole stream do. -/
theorem exists_piece_of_take (hn : 1 < n) (k : Nat) (hp : p ∈ pieces n (s.take k)) :
    ∃ q ∈ pieces n s, p <+: q := by
  induction s using pieces_induction hn generalizing k with
  | nil =>
    rw [List.take_nil] at hp
    exact absurd hp List.not_mem_nil
  | cons s hne ih =>
    by_cases htake : s.take k = []
    · rw [htake] at hp
      exact absurd hp List.not_mem_nil
    · rw [pieces_cons hn htake, takeLine_take] at hp
      rw [pieces_cons hn hne]
      rcases List.mem_cons.mp hp with rfl | hp
      · exact ⟨_, List.mem_cons_self, List.take_prefix _ _⟩
      · have hdrop : (s.take k).drop ((takeLine (n - 1) s).take k).length =
            (s.drop (takeLine (n - 1) s).length).take (k - (takeLine (n - 1) s).length) := by
          rw [List.length_take, List.drop_take]
          by_cases hk : k ≤ (takeLine (n - 1) s).length
          · rw [Nat.min_eq_left hk, Nat.sub_self, Nat.sub_eq_zero_of_le hk, List.take_zero,
              List.take_zero]
          · rw [Nat.min_eq_right (by omega)]
        rw [hdrop] at hp
        obtain ⟨q, hq, hpq⟩ := ih _ hp
        exact ⟨q, List.mem_cons_of_mem _ hq, hpq⟩

/-! ## Lines with a key, a tab and a value -/

section

variable {key value : List UInt8}

theorem not_mem_field (hkey : c ∉ key) (htab : c ≠ TAB) (hvalue : c ∉ value) :
    c ∉ key ++ TAB :: value := by
  intro h
  rcases List.mem_append.mp h with h | h
  · exact hkey h
  · exact hvalue ((List.mem_cons.mp h).resolve_left htab)

/-- Such a line is a piece if it fits. -/
theorem pieces_field (hkey : LF ∉ key) (hvalue : LF ∉ value)
    (hlen : key.length + value.length + 2 < n) (rest : List UInt8) :
    pieces n (key ++ TAB :: (value ++ LF :: rest)) =
      (key ++ TAB :: (value ++ [LF])) :: pieces n rest := by
  have hfits : (key ++ TAB :: value).length + 1 < n := by
    rw [List.length_append, List.length_cons]
    omega
  have hline := pieces_line (not_mem_field hkey (by decide) hvalue) hfits rest
  rw [List.append_assoc, List.append_assoc, List.cons_append, List.cons_append] at hline
  exact hline

end

/-! ## Strings -/

theorem cstring_isPrefix (s : List UInt8) : cstring s <+: s := List.takeWhile_prefix _

theorem cstring_eq_self : cstring s = s ↔ 0 ∉ s := by
  unfold cstring
  rw [List.takeWhile_eq_self_iff]
  constructor
  · intro h hmem
    exact absurd (h 0 hmem) (by decide)
  · intro h c hc
    exact decide_eq_true fun heq => h (heq ▸ hc)

theorem length_flatMap_cstring (ps : List (List UInt8)) :
    (ps.flatMap cstring).length ≤ ps.flatten.length := by
  induction ps with
  | nil => exact Nat.le_refl _
  | cons p ps ih =>
    have hp := (cstring_isPrefix p).length_le
    rw [List.flatMap_cons, List.flatten_cons, List.length_append, List.length_append]
    omega

/-- Pieces taken for strings are complete iff there is no zero in them. -/
theorem flatMap_cstring_eq_flatten (ps : List (List UInt8)) :
    ps.flatMap cstring = ps.flatten ↔ 0 ∉ ps.flatten := by
  induction ps with
  | nil => simp
  | cons p ps ih =>
    rw [List.flatMap_cons, List.flatten_cons, List.mem_append, not_or]
    constructor
    · intro heq
      have hlen := congrArg List.length heq
      have hp := (cstring_isPrefix p).length_le
      have hps := length_flatMap_cstring ps
      rw [List.length_append, List.length_append] at hlen
      -- neither of the two parts can be longer than its text
      have hself : cstring p = p := (cstring_isPrefix p).eq_of_length (by omega)
      rw [hself] at heq
      exact ⟨cstring_eq_self.mp hself, ih.mp (List.append_cancel_left heq)⟩
    · rintro ⟨hp, hps⟩
      rw [cstring_eq_self.mpr hp, ih.mpr hps]

end LinuxInterface
