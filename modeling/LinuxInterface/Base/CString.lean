/-
  C strings and the functions of `<string.h>` and `<ctype.h>` on them.

  A C string is a sequence of bytes none of which is zero (`CStr`); the terminating zero is not
  part of it, but it can be read: `charAt` is `s[i]`, which is the terminator for `i` the length
  and `none` (a read beyond the string) for a larger `i`.
-/
import Mathlib.Data.List.Basic

namespace LinuxInterface

/-- A string without its terminator. -/
structure CStr where
  bytes : List UInt8
  noNul : 0 ∉ bytes

/-- `strlen(s)`. -/
def CStr.strlen (s : CStr) : Nat := s.bytes.length

/-- `s[i]`. -/
def CStr.charAt (s : CStr) (i : Nat) : Option UInt8 :=
  if i = s.bytes.length then some 0 else s.bytes[i]?

/-- The loop of `strncmp`: the strings are read byte by byte, the terminator included, until they
    differ, one ends, or `n` bytes have been compared. -/
def strncmpLoop (s t : List UInt8) : Nat → Int
  | 0 => 0
  | n + 1 =>
    if s.headD 0 ≠ t.headD 0 then ((s.headD 0).toNat : Int) - ((t.headD 0).toNat : Int)
    else if s.headD 0 = 0 then 0
    else strncmpLoop s.tail t.tail n

/-- `strncmp(s, t, n)`. -/
def strncmp (s t : CStr) (n : Nat) : Int := strncmpLoop s.bytes t.bytes n

/-- The loop of `strcmp`, which goes on until the strings differ or one ends. -/
def strcmpLoop : List UInt8 → List UInt8 → Int
  | [], [] => 0
  | [], d :: _ => 0 - (d.toNat : Int)
  | c :: _, [] => (c.toNat : Int) - 0
  | c :: s, d :: t => if c ≠ d then (c.toNat : Int) - (d.toNat : Int) else strcmpLoop s t

/-- `strcmp(s, t)`. -/
def strcmp (s t : CStr) : Int := strcmpLoop s.bytes t.bytes

/-- The same loop on the memory of the strings, from `s + i` and `t + i` on: every byte is fetched,
    and `none` is a read behind a terminator. -/
def strncmpFrom (s t : CStr) : Nat → Nat → Option Int
  | 0, _ => some 0
  | n + 1, i =>
    (s.charAt i).bind fun c => (t.charAt i).bind fun d =>
      if c ≠ d then some ((c.toNat : Int) - (d.toNat : Int))
      else if c = 0 then some 0
      else strncmpFrom s t n (i + 1)

/-- `strstr(s, needle)`: where `needle` first occurs in `s`, as what `s` is from there on. -/
def strstr (needle : List UInt8) : List UInt8 → Option (List UInt8)
  | [] => if needle <+: [] then some [] else none
  | c :: s => if needle <+: c :: s then some (c :: s) else strstr needle s

/-- `strtok(s, "c")`: the first token, and what is left for `strtok(NULL, "c")`. -/
def strtok (c : UInt8) (s : List UInt8) : Option (List UInt8 × List UInt8) :=
  if s.dropWhile (· = c) = [] then none
  else some ((s.dropWhile (· = c)).takeWhile (· ≠ c), ((s.dropWhile (· = c)).dropWhile (· ≠ c)).tail)

/-- `isalpha(c)` in the C locale. -/
def isalpha (c : UInt8) : Bool := (65 ≤ c && c ≤ 90) || (97 ≤ c && c ≤ 122)

/-- `isalnum(c)` in the C locale. -/
def isalnum (c : UInt8) : Bool := isalpha c || (48 ≤ c && c ≤ 57)

/-- `snprintf(buf, n, "%s", text)`: what `buf` holds afterwards, for `0 < n`. -/
def snprintf (n : Nat) (text : CStr) : CStr where
  bytes := text.bytes.take (n - 1)
  noNul := fun h => text.noNul (List.mem_of_mem_take h)

/-- The strings differ in a byte: `strncmp` says so. -/
theorem byte_sub_ne {c d : UInt8} (h : d ≠ c) : (d.toNat : Int) - (c.toNat : Int) ≠ 0 := by
  intro h0
  have hnat : d.toNat = c.toNat := by omega
  exact h (UInt8.toNat_inj.mp hnat)

/-- Compared up to the length of `t`, the strings agree iff `t` is what `s` begins with. -/
theorem strncmpLoop_eq_zero {t : List UInt8} (ht : 0 ∉ t) : ∀ {s : List UInt8}, 0 ∉ s →
    (strncmpLoop s t t.length = 0 ↔ t <+: s) := by
  induction t with
  | nil => exact fun {s} _ => ⟨fun _ => List.nil_prefix, fun _ => rfl⟩
  | cons c t ih =>
    have hc : c ≠ 0 := fun h => ht (by simp [h])
    intro s hs
    cases s with
    | nil =>
      -- the terminator of `s` against `c`
      have hne : (([] : List UInt8).headD 0) ≠ (c :: t).headD 0 := fun h => hc h.symm
      have hval : strncmpLoop [] (c :: t) (t.length + 1) = ((0 : UInt8).toNat : Int) - c.toNat :=
        if_pos hne
      rw [List.length_cons, hval]
      constructor
      · intro h0
        exact absurd h0 (byte_sub_ne hc.symm)
      · intro hpre
        exact absurd (List.prefix_nil.mp hpre) (by simp)
    | cons d s =>
      rw [List.length_cons, List.cons_prefix_cons]
      by_cases hd : d = c
      · subst hd
        have hval : strncmpLoop (d :: s) (d :: t) (t.length + 1) = strncmpLoop s t t.length :=
          (if_neg (not_not.mpr rfl)).trans (if_neg hc)
        rw [hval, ih (fun h => ht (by simp [h])) (fun h => hs (by simp [h]))]
        exact ⟨fun h => ⟨rfl, h⟩, fun h => h.2⟩
      · have hval : strncmpLoop (d :: s) (c :: t) (t.length + 1) = (d.toNat : Int) - c.toNat :=
          if_pos hd
        rw [hval]
        constructor
        · intro h0
          exact absurd h0 (byte_sub_ne hd)
        · intro h
          exact absurd h.1.symm hd

/-- `strncmp` finds no difference in one order iff it finds none in the other. -/
theorem strncmpLoop_comm_zero (s t : List UInt8) (n : Nat) :
    strncmpLoop s t n = 0 ↔ strncmpLoop t s n = 0 := by
  induction n generalizing s t with
  | zero => exact Iff.rfl
  | succ n ih =>
    unfold strncmpLoop
    by_cases h : s.headD 0 = t.headD 0
    · rw [if_neg (not_not.mpr h), if_neg (not_not.mpr h.symm), h]
      split
      · exact Iff.rfl
      · exact ih _ _
    · rw [if_pos h, if_pos (Ne.symm h)]
      exact ⟨fun h0 => absurd h0 (byte_sub_ne h), fun h0 => absurd h0 (byte_sub_ne (Ne.symm h))⟩

/-- Compared up to the length of `s`, the strings agree iff `s` is what `t` begins with. -/
theorem strncmpLoop_eq_zero_left {s t : List UInt8} (hs : 0 ∉ s) (ht : 0 ∉ t) :
    strncmpLoop s t s.length = 0 ↔ s <+: t :=
  (strncmpLoop_comm_zero s t s.length).trans (strncmpLoop_eq_zero hs ht)

/-- `strncmp(s, t, strlen(t)) == 0`. -/
theorem strncmp_eq_zero (s t : CStr) : strncmp s t t.strlen = 0 ↔ t.bytes <+: s.bytes :=
  strncmpLoop_eq_zero t.noNul s.noNul

theorem strcmpLoop_eq_zero : ∀ {s t : List UInt8}, 0 ∉ s → 0 ∉ t → (strcmpLoop s t = 0 ↔ s = t)
  | [], [], _, _ => ⟨fun _ => rfl, fun _ => rfl⟩
  | [], d :: t, _, ht => by
    have hd : (0 : UInt8) ≠ d := fun h => ht (h ▸ List.mem_cons_self)
    exact ⟨fun h => absurd h (byte_sub_ne hd), fun h => nomatch h⟩
  | c :: s, [], hs, _ => by
    have hc : c ≠ (0 : UInt8) := fun h => hs (h ▸ List.mem_cons_self)
    exact ⟨fun h => absurd h (byte_sub_ne hc), fun h => nomatch h⟩
  | c :: s, d :: t, hs, ht => by
    have ih := strcmpLoop_eq_zero (fun h => hs (List.mem_cons_of_mem c h))
      (fun h => ht (List.mem_cons_of_mem d h))
    rw [strcmpLoop, List.cons.injEq]
    by_cases hcd : c = d
    · rw [if_neg (not_not.mpr hcd), ih]
      exact ⟨fun h => ⟨hcd, h⟩, fun h => h.2⟩
    · rw [if_pos hcd]
      exact ⟨fun h => absurd h (byte_sub_ne hcd), fun h => absurd h.1 hcd⟩

/-- `strcmp(s, t) == 0`. -/
theorem strcmp_eq_zero (s t : CStr) : strcmp s t = 0 ↔ s.bytes = t.bytes :=
  strcmpLoop_eq_zero s.noNul t.noNul

/-- `strcmp` orders the strings by the first byte in which they differ. -/
theorem strcmpLoop_le_zero : ∀ {s t : List UInt8}, 0 ∉ s → (strcmpLoop s t ≤ 0 ↔ s ≤ t)
  | [], [], _ => ⟨fun _ => List.nil_le [], fun _ => Int.le_refl 0⟩
  | [], d :: t, _ => by
    refine ⟨fun _ => List.nil_le _, fun _ => ?_⟩
    rw [strcmpLoop]
    omega
  | c :: s, [], hs => by
    have hc : c ≠ (0 : UInt8) := fun h => hs (h ▸ List.mem_cons_self)
    have hne := byte_sub_ne hc
    rw [strcmpLoop]
    constructor
    · intro h
      have hzero : (c.toNat : Int) - ((0 : UInt8).toNat : Int) = 0 := by
        show (c.toNat : Int) - 0 = 0
        omega
      exact absurd hzero hne
    · intro h
      exact absurd (List.le_nil.mp h) (List.cons_ne_nil c s)
  | c :: s, d :: t, hs => by
    have ih := @strcmpLoop_le_zero s t fun h => hs (List.mem_cons_of_mem c h)
    rw [strcmpLoop, List.cons_le_cons_iff]
    by_cases hcd : c = d
    · rw [if_neg (not_not.mpr hcd), ih]
      constructor
      · intro h
        exact Or.inr ⟨hcd, h⟩
      · rintro (h | h)
        · exact absurd hcd (UInt8.ne_of_lt h)
        · exact h.2
    · rw [if_pos hcd, UInt8.lt_iff_toNat_lt]
      have hnat : c.toNat ≠ d.toNat := fun h => hcd (UInt8.toNat_inj.mp h)
      constructor
      · intro h
        exact Or.inl (by omega)
      · rintro (h | h)
        · omega
        · exact absurd h.1 hcd

/-- `strcmp(s, t) <= 0`. -/
theorem strcmp_le_zero (s t : CStr) : strcmp s t ≤ 0 ↔ s.bytes ≤ t.bytes :=
  strcmpLoop_le_zero s.noNul

/-- A read up to the terminator. -/
theorem charAt_eq {s : CStr} {i : Nat} (h : i ≤ s.strlen) :
    s.charAt i = some ((s.bytes.drop i).headD 0) := by
  unfold CStr.charAt
  rcases Nat.lt_or_eq_of_le h with hlt | heq
  · have hlt' : i < s.bytes.length := hlt
    rw [if_neg (Nat.ne_of_lt hlt'), List.getElem?_eq_getElem hlt', List.drop_eq_getElem_cons hlt']
    rfl
  · have heq' : i = s.bytes.length := heq
    rw [if_pos heq', heq', List.drop_length]
    rfl

/-- What is not the terminator is before it. -/
theorem lt_strlen {s : CStr} {i : Nat} (h : (s.bytes.drop i).headD 0 ≠ 0) : i < s.strlen := by
  by_contra hge
  have hge' : s.bytes.length ≤ i := Nat.le_of_not_lt hge
  rw [List.drop_eq_nil_of_le hge'] at h
  exact h rfl

/-- `strncmp` never reads behind a terminator: there it stops, whatever `n` is. -/
theorem strncmpFrom_eq (s t : CStr) (n : Nat) : ∀ i, i ≤ s.strlen → i ≤ t.strlen →
    strncmpFrom s t n i = some (strncmpLoop (s.bytes.drop i) (t.bytes.drop i) n) := by
  induction n with
  | zero => exact fun _ _ _ => rfl
  | succ n ih =>
    intro i hs ht
    rw [strncmpFrom, charAt_eq hs, charAt_eq ht, strncmpLoop, Option.bind_some, Option.bind_some]
    by_cases hne : (s.bytes.drop i).headD 0 ≠ (t.bytes.drop i).headD 0
    · rw [if_pos hne, if_pos hne]
    · rw [if_neg hne, if_neg hne]
      by_cases hend : (s.bytes.drop i).headD 0 = 0
      · rw [if_pos hend, if_pos hend]
      · -- neither string has ended, so there is a byte behind this one
        have hend' : (t.bytes.drop i).headD 0 ≠ 0 := by
          rw [← not_not.mp hne]
          exact hend
        rw [if_neg hend, if_neg hend, ih (i + 1) (lt_strlen hend) (lt_strlen hend'), List.tail_drop,
          List.tail_drop]

/-- Behind a beginning `t` of `s` comes the byte `c`, which is not the terminator, iff `s` begins
    with `t` and `c`.  The byte is one of `s`, at most its terminator. -/
theorem charAt_behind {s t : CStr} {c : UInt8} (hc : c ≠ 0) (h : t.bytes <+: s.bytes) :
    s.charAt t.strlen = some c ↔ t.bytes ++ [c] <+: s.bytes := by
  obtain ⟨r, hr⟩ := h
  unfold CStr.charAt CStr.strlen
  rw [← hr, List.prefix_append_right_inj]
  cases r with
  | nil =>
    rw [List.append_nil, if_pos rfl]
    constructor
    · intro h0
      exact absurd (Option.some.inj h0).symm hc
    · intro hpre
      exact absurd (List.prefix_nil.mp hpre) (by simp)
  | cons d r =>
    have hlen : t.bytes.length ≠ (t.bytes ++ d :: r).length := by simp
    rw [if_neg hlen, List.getElem?_append_right (Nat.le_refl _), Nat.sub_self]
    show some d = some c ↔ _
    rw [List.cons_prefix_cons]
    constructor
    · intro h
      exact ⟨(Option.some.inj h).symm, List.nil_prefix⟩
    · intro h
      rw [h.1]

theorem strstr_start {needle s : List UInt8} (h : needle <+: s) : strstr needle s = some s := by
  cases s with
  | nil => exact if_pos h
  | cons c s => exact if_pos h

theorem strstr_missing {needle s : List UInt8} (h : ¬needle <:+: s) : strstr needle s = none := by
  induction s with
  | nil => exact if_neg fun hpre => h hpre.isInfix
  | cons c s ih =>
    rw [strstr, if_neg fun hpre => h hpre.isInfix]
    exact ih fun hinf => h (List.infix_cons hinf)

/-- A token with a delimiter behind it. -/
theorem strtok_token {c : UInt8} {p : List UInt8} (hne : p ≠ []) (hp : c ∉ p) (s : List UInt8) :
    strtok c (p ++ c :: s) = some (p, s) := by
  obtain ⟨d, p, rfl⟩ := List.exists_cons_of_ne_nil hne
  have hd : d ≠ c := fun h => hp (by simp [h])
  have hdrop : (d :: p ++ c :: s).dropWhile (· = c) = d :: p ++ c :: s := by
    simp [hd]
  have hother : ∀ x ∈ d :: p, decide (x ≠ c) = true := by
    intro x hx
    exact decide_eq_true fun h => hp (h ▸ hx)
  rw [strtok, hdrop, if_neg (by simp), List.takeWhile_append_of_pos hother,
    List.dropWhile_append_of_pos hother]
  simp

end LinuxInterface
