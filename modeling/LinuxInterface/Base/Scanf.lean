/-
  Numbers and words in text: `atoi`, `strtol`, `sscanf` and what `printf` prints for `%d`.

  1. **Numbers** — `decimal n` is `n` in decimal, `value` reads such digits back
     (`value_decimal`), and a number that is cut off behind one of its digits is another, smaller
     one (`value_of_cut`).  Written with equally many digits, numbers are in the order of the bytes
     (`value_lt_value`).

  2. **Formats** — `sscanf` over the directives of a format: bytes that have to be there, white
     space, `%d` and `%s`.  It returns what was converted before the first directive that failed.
-/
import Mathlib.Algebra.Group.Nat.Defs
import Mathlib.Data.BitVec
import Mathlib.Data.List.DropRight
import Mathlib.Data.List.TakeWhile

namespace LinuxInterface

/-- The bytes of a text in ASCII. -/
def ascii (text : List Char) : List UInt8 := text.map fun c => c.toNat.toUInt8

/-- `isspace(c)` in the C locale. -/
def isspace (c : UInt8) : Bool := c = 32 || (9 ≤ c && c ≤ 13)

/-- `isdigit(c)`. -/
def isdigit (c : UInt8) : Bool := 48 ≤ c && c ≤ 57

/-! ## Numbers -/

/-- The digit `d`. -/
def digit (d : Nat) : UInt8 := (48 + d).toUInt8

/-- At most `k` digits of `n`, from the front. -/
def decimalN : Nat → Nat → List UInt8
  | 0, _ => []
  | k + 1, n => (if n < 10 then [] else decimalN k (n / 10)) ++ [digit (n % 10)]

/-- `n` in decimal. -/
def decimal (n : Nat) : List UInt8 := decimalN (n + 1) n

/-- `n` as `%d` prints it. -/
def decimalInt (n : Int) : List UInt8 := if n < 0 then 45 :: decimal n.natAbs else decimal n.natAbs

/-- `n` as `%0wd` prints it. -/
def decimalPad (w n : Nat) : List UInt8 := List.replicate (w - (decimal n).length) (digit 0) ++ decimal n

/-- The number that digits stand for. -/
def value (ds : List UInt8) : Nat := ds.foldl (fun v c => 10 * v + (c.toNat - 48)) 0

/-- The number in front of a text, and what is behind it. -/
def scanInt (s : List UInt8) : Option (Int × List UInt8) :=
  let (negative, s) : Bool × List UInt8 :=
    match s with
    | c :: s' => if c = 45 then (true, s') else if c = 43 then (false, s') else (false, s)
    | [] => (false, [])
  let ds := s.takeWhile isdigit
  if ds = [] then none
  else some (if negative then -(value ds : Int) else value ds, s.dropWhile isdigit)

def LONG_MAX : Int := 9223372036854775807
def LONG_MIN : Int := -9223372036854775808

/-- `strtol(s, &endptr, 10)` with a `long` of 64 bits, and what `endptr` points at. -/
def strtol (s : List UInt8) : Int × List UInt8 :=
  match scanInt (s.dropWhile isspace) with
  | some (v, rest) => (max LONG_MIN (min v LONG_MAX), rest)
  | none => (0, s)

/-- `atoi(s)`: what `strtol` returns, as an `int`. -/
def atoi (s : List UInt8) : Int := (BitVec.ofInt 32 (strtol s).1).toInt

section

variable {n k : Nat} {s p w : List UInt8}

theorem decimalN_eq (h : n < k) : decimalN k n = decimal n := by
  induction k using Nat.strongRecOn generalizing n with
  | ind k ih =>
    obtain ⟨k, rfl⟩ := Nat.exists_eq_succ_of_ne_zero (by omega : k ≠ 0)
    rw [decimal, decimalN, decimalN]
    by_cases hn : n < 10
    · rw [if_pos hn, if_pos hn]
    · rw [if_neg hn, if_neg hn, ih k (by omega) (by omega)]
      by_cases hk : n = k
      · rw [hk, ih k (by omega) (by omega)]
      · rw [ih n (by omega) (by omega)]

/-- A number is the digits of its tenth, if there are any, and its last digit. -/
theorem decimal_eq (n : Nat) :
    decimal n = (if n < 10 then [] else decimal (n / 10)) ++ [digit (n % 10)] := by
  show decimalN (n + 1) n = _
  rw [decimalN]
  by_cases hn : n < 10
  · rw [if_pos hn, if_pos hn]
  · rw [if_neg hn, if_neg hn, decimalN_eq (by omega)]

theorem decimal_ne_nil (n : Nat) : decimal n ≠ [] := by
  rw [decimal_eq]
  simp

theorem digit_toNat {d : Nat} (h : d < 10) : (digit d).toNat = 48 + d := by
  rw [digit, Nat.toUInt8, UInt8.toNat_ofNat']
  omega

theorem isdigit_iff {c : UInt8} : isdigit c = true ↔ 48 ≤ c.toNat ∧ c.toNat ≤ 57 := by
  rw [isdigit, Bool.and_eq_true, decide_eq_true_iff, decide_eq_true_iff, UInt8.le_iff_toNat_le,
    UInt8.le_iff_toNat_le]
  rfl

theorem isdigit_digit {d : Nat} (h : d < 10) : isdigit (digit d) = true := by
  rw [isdigit_iff, digit_toNat h]
  omega

theorem isdigit_of_mem_decimal {c : UInt8} (h : c ∈ decimal n) : isdigit c = true := by
  induction n using Nat.strongRecOn with
  | ind n ih =>
    rw [decimal_eq, List.mem_append, List.mem_singleton] at h
    rcases h with h | rfl
    · split at h
      · exact absurd h List.not_mem_nil
      · exact ih (n / 10) (by omega) h
    · exact isdigit_digit (Nat.mod_lt n (by omega))

/-- A byte that is no digit is not in a number. -/
theorem not_mem_decimal {c : UInt8} (hc : isdigit c = false) (n : Nat) : c ∉ decimal n := by
  intro h
  rw [isdigit_of_mem_decimal h] at hc
  nomatch hc

/-- A number begins with a digit. -/
theorem isdigit_headD_decimal (n : Nat) : isdigit ((decimal n).headD 0) = true := by
  obtain ⟨c, ds, hds⟩ := List.exists_cons_of_ne_nil (decimal_ne_nil n)
  have hc : c ∈ decimal n := by
    rw [hds]
    exact List.mem_cons_self
  rw [hds]
  exact isdigit_of_mem_decimal hc

theorem value_concat (ds : List UInt8) (c : UInt8) :
    value (ds ++ [c]) = 10 * value ds + (c.toNat - 48) := by
  rw [value, List.foldl_append]
  rfl

theorem value_decimal (n : Nat) : value (decimal n) = n := by
  induction n using Nat.strongRecOn with
  | ind n ih =>
    rw [decimal_eq, value_concat, digit_toNat (Nat.mod_lt n (by omega))]
    by_cases hn : n < 10
    · rw [if_pos hn]
      show 10 * 0 + _ = n
      omega
    · rw [if_neg hn, ih (n / 10) (by omega)]
      omega

theorem length_decimal (hk : 0 < k) (h : n < 10 ^ k) : (decimal n).length ≤ k := by
  induction k generalizing n with
  | zero => exact absurd hk (Nat.lt_irrefl 0)
  | succ k ih =>
    rw [decimal_eq, List.length_append, List.length_singleton]
    by_cases hn : n < 10
    · rw [if_pos hn]
      exact Nat.succ_le_succ (Nat.zero_le k)
    · have hk' : 0 < k := by
        by_contra h0
        obtain rfl : k = 0 := by omega
        exact hn h
      rw [Nat.pow_succ] at h
      rw [if_neg hn]
      exact Nat.succ_le_succ (ih hk' (by omega))

theorem length_decimal_mono {m : Nat} (h : m ≤ n) : (decimal m).length ≤ (decimal n).length := by
  induction n using Nat.strongRecOn generalizing m with
  | ind n ih =>
    rw [decimal_eq m, decimal_eq n, List.length_append, List.length_append]
    by_cases hm : m < 10
    · rw [if_pos hm]
      exact Nat.add_le_add (Nat.zero_le _) (Nat.le_refl _)
    · rw [if_neg hm, if_neg (by omega : ¬n < 10)]
      exact Nat.add_le_add (ih (n / 10) (by omega) (Nat.div_le_div_right h)) (Nat.le_refl _)

theorem length_decimalPad (w n : Nat) : (decimalPad w n).length = max w (decimal n).length := by
  rw [decimalPad, List.length_append, List.length_replicate]
  omega

theorem isdigit_of_mem_decimalPad {w : Nat} {c : UInt8} (h : c ∈ decimalPad w n) :
    isdigit c = true := by
  rcases List.mem_append.mp h with h | h
  · rw [List.eq_of_mem_replicate h]
    exact isdigit_digit (by omega)
  · exact isdigit_of_mem_decimal h

/-- Zeros in front do not count. -/
theorem value_decimalPad (w n : Nat) : value (decimalPad w n) = n := by
  rw [decimalPad]
  induction w - (decimal n).length with
  | zero => exact value_decimal n
  | succ k ih =>
    rw [List.replicate_succ, List.cons_append]
    exact ih

theorem value_cons (c : UInt8) (ds : List UInt8) :
    value (c :: ds) = (c.toNat - 48) * 10 ^ ds.length + value ds := by
  induction ds using List.reverseRecOn with
  | nil =>
    show 10 * 0 + (c.toNat - 48) = (c.toNat - 48) * 1 + 0
    omega
  | append_singleton ds e ih =>
    rw [← List.cons_append, value_concat, value_concat, ih, List.length_append,
      List.length_singleton, Nat.pow_succ, Nat.mul_add, ← Nat.mul_assoc]
    rw [Nat.mul_comm 10 (c.toNat - 48), Nat.mul_assoc, Nat.mul_comm 10 (10 ^ ds.length),
      Nat.add_assoc]

theorem value_lt_pow {ds : List UInt8} (h : ∀ c ∈ ds, isdigit c = true) :
    value ds < 10 ^ ds.length := by
  induction ds using List.reverseRecOn with
  | nil => exact Nat.one_pos
  | append_singleton ds e ih =>
    obtain ⟨hds, he⟩ := List.forall_mem_append.mp h
    have hlt := ih hds
    have hdigit := isdigit_iff.mp (he e (List.mem_singleton.mpr rfl))
    rw [value_concat, List.length_append, List.length_singleton, Nat.pow_succ]
    omega

/-- **Of equally many digits**, the greater number is the one that comes later. -/
theorem value_lt_value {ds es : List UInt8} (hds : ∀ c ∈ ds, isdigit c = true)
    (hes : ∀ c ∈ es, isdigit c = true) (hlen : ds.length = es.length) (h : ds < es) :
    value ds < value es := by
  induction ds generalizing es with
  | nil =>
    obtain rfl := List.length_eq_zero_iff.mp hlen.symm
    exact absurd h (List.not_lt_nil [])
  | cons c ds ih =>
    cases es with
    | nil => exact absurd h (List.not_lt_nil _)
    | cons e es =>
      obtain ⟨hc, hdigits⟩ := List.forall_mem_cons.mp hds
      have hes' := (List.forall_mem_cons.mp hes).2
      have htail : ds.length = es.length := Nat.succ.inj hlen
      rw [value_cons, value_cons, ← htail]
      rcases List.cons_lt_cons_iff.mp h with hce | ⟨rfl, hlt⟩
      · -- the digits behind do not make up for one in front
        have hdigit := isdigit_iff.mp hc
        have hless := UInt8.lt_iff_toNat_lt.mp hce
        have hstep : c.toNat - 48 + 1 ≤ e.toNat - 48 := by omega
        calc (c.toNat - 48) * 10 ^ ds.length + value ds
            < (c.toNat - 48) * 10 ^ ds.length + 10 ^ ds.length :=
              Nat.add_lt_add_left (value_lt_pow hdigits) _
          _ = (c.toNat - 48 + 1) * 10 ^ ds.length := (Nat.succ_mul _ _).symm
          _ ≤ (e.toNat - 48) * 10 ^ ds.length := Nat.mul_le_mul_right _ hstep
          _ ≤ (e.toNat - 48) * 10 ^ ds.length + value es := Nat.le_add_right _ _
      · exact Nat.add_lt_add_left (ih hdigits hes' htail hlt) _

/-- A number that is cut off behind one of its digits is a smaller one. -/
theorem value_of_cut (hp : p <+: decimal n) (hne : p ≠ decimal n) (hnil : p ≠ []) :
    value p < n := by
  induction n using Nat.strongRecOn with
  | ind n ih =>
    rw [decimal_eq] at hp hne
    have hp' := (List.prefix_concat_iff.mp hp).resolve_left hne
    by_cases hn : n < 10
    · rw [if_pos hn] at hp'
      exact absurd (List.prefix_nil.mp hp') hnil
    · rw [if_neg hn] at hp'
      by_cases heq : p = decimal (n / 10)
      · rw [heq, value_decimal]
        omega
      · have hlt := ih (n / 10) (by omega) hp' heq
        omega

theorem isspace_iff {c : UInt8} : isspace c = true ↔
    c.toNat = 32 ∨ 9 ≤ c.toNat ∧ c.toNat ≤ 13 := by
  rw [isspace, Bool.or_eq_true, Bool.and_eq_true, decide_eq_true_iff, decide_eq_true_iff,
    decide_eq_true_iff, UInt8.le_iff_toNat_le, UInt8.le_iff_toNat_le, ← UInt8.toNat_inj]
  rfl

/-- Nothing is taken where the first byte is of another kind, … -/
theorem takeWhile_stop {q : UInt8 → Bool} (hs : ∀ c ∈ s.head?, q c = false) :
    s.takeWhile q = [] := by
  cases s with
  | nil => rfl
  | cons c s => exact List.takeWhile_cons_of_neg (Bool.eq_false_iff.mp (hs c rfl))

/-- … and nothing is dropped. -/
theorem dropWhile_stop {q : UInt8 → Bool} (hs : ∀ c ∈ s.head?, q c = false) :
    s.dropWhile q = s := by
  cases s with
  | nil => rfl
  | cons c s => exact List.dropWhile_cons_of_neg (Bool.eq_false_iff.mp (hs c rfl))

/-- Digits up to the end, or to something else, are read as the number they stand for. -/
theorem scanInt_digits (hp : ∀ c ∈ p, isdigit c = true) (hne : p ≠ [])
    (hs : ∀ c ∈ s.head?, isdigit c = false) : scanInt (p ++ s) = some ((value p : Int), s) := by
  obtain ⟨c, p, rfl⟩ := List.exists_cons_of_ne_nil hne
  have hc := isdigit_iff.mp (hp c List.mem_cons_self)
  have hminus : c ≠ 45 := by
    rintro rfl
    exact absurd hc (by decide)
  have hplus : c ≠ 43 := by
    rintro rfl
    exact absurd hc (by decide)
  have htake : (c :: p ++ s).takeWhile isdigit = c :: p := by
    rw [List.takeWhile_append_of_pos hp, takeWhile_stop hs, List.append_nil]
  have hdrop : (c :: p ++ s).dropWhile isdigit = s := by
    rw [List.dropWhile_append_of_pos hp, dropWhile_stop hs]
  -- a digit is no sign
  unfold scanInt
  rw [List.cons_append] at htake hdrop ⊢
  dsimp only
  rw [if_neg hminus, if_neg hplus]
  dsimp only
  rw [htake, hdrop, if_neg hne]
  rfl

theorem isspace_of_isdigit {c : UInt8} (h : isdigit c = true) : isspace c = false := by
  have hdigit := isdigit_iff.mp h
  rw [← Bool.not_eq_true, isspace_iff]
  omega

theorem dropWhile_isspace_digits (hp : ∀ c ∈ p, isdigit c = true) (hne : p ≠ []) :
    (p ++ s).dropWhile isspace = p ++ s := by
  obtain ⟨c, p, rfl⟩ := List.exists_cons_of_ne_nil hne
  apply dropWhile_stop
  intro d hd
  obtain rfl : c = d := Option.some.inj hd
  exact isspace_of_isdigit (hp c List.mem_cons_self)

/-- `strtol` reads digits and stops behind them. -/
theorem strtol_digits (hp : ∀ c ∈ p, isdigit c = true) (hne : p ≠ [])
    (hs : ∀ c ∈ s.head?, isdigit c = false) (hfit : value p < 2 ^ 63) :
    strtol (p ++ s) = ((value p : Int), s) := by
  have hmin : min (value p : Int) LONG_MAX = value p := by
    unfold LONG_MAX
    omega
  have hmax : max LONG_MIN (value p : Int) = value p := by
    unfold LONG_MIN
    omega
  rw [strtol, dropWhile_isspace_digits hp hne, scanInt_digits hp hne hs]
  dsimp only
  rw [hmin, hmax]

/-- So does `atoi`, if the number is an `int`. -/
theorem atoi_digits (hp : ∀ c ∈ p, isdigit c = true) (hne : p ≠ [])
    (hs : ∀ c ∈ s.head?, isdigit c = false) (hfit : value p < 2 ^ 31) : atoi (p ++ s) = value p := by
  rw [atoi, strtol_digits hp hne hs (by omega), BitVec.toInt_ofInt]
  exact Int.bmod_eq_of_le (by omega) (by omega)

theorem atoi_decimal {n : Nat} (h : n < 2 ^ 31) : atoi (decimal n) = n := by
  have hatoi := atoi_digits (s := []) (fun c => isdigit_of_mem_decimal) (decimal_ne_nil n)
    (fun c hc => nomatch hc) (by rw [value_decimal]; exact h)
  rw [List.append_nil, value_decimal] at hatoi
  exact hatoi

theorem atoi_lt (s : List UInt8) : atoi s < 2 ^ 31 := BitVec.toInt_lt

end

/-! ## Formats -/

/-- A directive of a format. -/
inductive Directive where
  | byte (c : UInt8)
  | space
  | int
  | word

/-- A value that was converted. -/
inductive Conversion where
  | int (v : Int)
  | word (w : List UInt8)
  deriving DecidableEq

/-- `sscanf(s, format, …)`: what is converted, in this order. -/
def sscanf : List Directive → List UInt8 → List Conversion
  | [], _ => []
  | .byte _ :: _, [] => []
  | .byte c :: format, d :: s => if c = d then sscanf format s else []
  | .space :: format, s => sscanf format (s.dropWhile isspace)
  | .int :: format, s =>
    match scanInt (s.dropWhile isspace) with
    | none => []
    | some (v, rest) => .int v :: sscanf format rest
  | .word :: format, s =>
    let w := (s.dropWhile isspace).takeWhile (!isspace ·)
    if w = [] then [] else .word w :: sscanf format ((s.dropWhile isspace).drop w.length)

section

variable {format : List Directive} {lit s p w : List UInt8}

/-- The bytes of a format have to be there. -/
theorem sscanf_bytes (lit : List UInt8) (format : List Directive) (s : List UInt8) :
    sscanf (lit.map .byte ++ format) (lit ++ s) = sscanf format s := by
  induction lit with
  | nil => rfl
  | cons c lit ih =>
    rw [List.map_cons, List.cons_append, List.cons_append, sscanf, if_pos rfl, ih]

theorem sscanf_bytes_missing (h : ¬lit <+: s) : sscanf (lit.map .byte ++ format) s = [] := by
  induction lit generalizing s with
  | nil => exact absurd List.nil_prefix h
  | cons c lit ih =>
    cases s with
    | nil => rfl
    | cons d s =>
      rw [List.map_cons, List.cons_append, sscanf]
      by_cases hc : c = d
      · subst hc
        rw [if_pos rfl]
        exact ih fun hpre => h ((List.prefix_cons_inj c).mpr hpre)
      · rw [if_neg hc]

/-- `%d` behind white space. -/
theorem sscanf_int (hw : ∀ c ∈ w, isspace c = true) (hp : ∀ c ∈ p, isdigit c = true)
    (hne : p ≠ []) (hs : ∀ c ∈ s.head?, isdigit c = false) :
    sscanf [.space, .int] (w ++ (p ++ s)) = [.int (value p)] := by
  rw [sscanf, sscanf, List.dropWhile_append_of_pos hw, List.dropWhile_idempotent,
    dropWhile_isspace_digits hp hne, scanInt_digits hp hne hs]
  rfl

/-- The first word of a text. -/
def firstWord (s : List UInt8) : List UInt8 := (s.dropWhile isspace).takeWhile (!isspace ·)

/-- `%s` behind white space. -/
theorem sscanf_word (s : List UInt8) :
    sscanf [.space, .word] s = if firstWord s = [] then [] else [.word (firstWord s)] := by
  rw [sscanf, sscanf, List.dropWhile_idempotent]
  rfl

theorem isspace_of_mem_firstWord {c : UInt8} (h : c ∈ firstWord s) : isspace c = false := by
  have hc := List.mem_takeWhile_imp h
  simpa using hc

theorem firstWord_append (hw : ∀ c ∈ w, isspace c = true) : firstWord (w ++ s) = firstWord s := by
  rw [firstWord, List.dropWhile_append_of_pos hw]
  rfl

/-- A word, up to the end or to white space. -/
theorem firstWord_word (hne : p ≠ []) (hp : ∀ c ∈ p, isspace c = false)
    (hs : ∀ c ∈ s.head?, isspace c = true) : firstWord (p ++ s) = p := by
  obtain ⟨c, p, rfl⟩ := List.exists_cons_of_ne_nil hne
  have hdrop : (c :: p ++ s).dropWhile isspace = c :: p ++ s := by
    apply dropWhile_stop
    intro d hd
    obtain rfl : c = d := Option.some.inj hd
    exact hp c List.mem_cons_self
  have hstop : ∀ c ∈ s.head?, (!isspace c) = false := by simpa using hs
  rw [firstWord, hdrop, List.takeWhile_append_of_pos (by simpa using hp), takeWhile_stop hstop,
    List.append_nil]

end

end LinuxInterface
