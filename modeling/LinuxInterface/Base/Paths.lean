/-
  Directories by their paths.

  1. **Path strings** — `s.slash n` is the path of the name `n` in the directory `s`.  `Within s t`
     says that `t` is `s` or a path below it; of two directories that a path is below, one is below
     the other (`Within.linear`).  A comparison up to the length of `s` and a look at the byte behind
     decides it (`strncmp_within`).

  2. **Directories** — a directory is a starting point and the names that lead from there
     (`DirPath`).  As strings, directories under starting points of which none is below another are
     below each other iff the names of one begin with those of the other (`within_str`).  When a
     directory moves, so does what is below it (`DirPath.rebase`).
-/
import LinuxInterface.Base.Directory

namespace LinuxInterface

/-! ## Path strings -/

theorem CStr.ext {s t : CStr} (h : s.bytes = t.bytes) : s = t := by
  cases s
  cases t
  cases h
  rfl

instance : DecidableEq CStr := fun _ _ => decidable_of_iff _ ⟨CStr.ext, congrArg CStr.bytes⟩

/-- `""`. -/
def CStr.empty : CStr := ⟨[], List.not_mem_nil⟩

/-- `"%s/%s"`. -/
def CStr.slash (s n : CStr) : CStr where
  bytes := s.bytes ++ SLASH :: n.bytes
  noNul := by
    intro h
    rcases List.mem_append.mp h with h | h
    · exact s.noNul h
    · rcases List.mem_cons.mp h with h | h
      · exact absurd h (by decide)
      · exact n.noNul h

/-- `"%s%s"`. -/
def CStr.append (s t : CStr) : CStr where
  bytes := s.bytes ++ t.bytes
  noNul := fun h => (List.mem_append.mp h).elim s.noNul t.noNul

/-- `&s[n]`. -/
def CStr.drop (s : CStr) (n : Nat) : CStr where
  bytes := s.bytes.drop n
  noNul := fun h => s.noNul (List.mem_of_mem_drop h)

/-- What is short enough for the buffer is not cut. -/
theorem snprintf_eq {n : Nat} {s : CStr} (h : s.strlen < n) : snprintf n s = s :=
  CStr.ext (List.take_of_length_le (Nat.le_sub_one_of_lt h))

/-- Nothing, or a slash and more. -/
def Cut (r : List UInt8) : Prop := r = [] ∨ r.head? = some SLASH

theorem Cut.left {u r : List UInt8} (h : Cut (u ++ r)) : Cut u := by
  cases u with
  | nil => exact Or.inl rfl
  | cons c u =>
    rcases h with h | h
    · nomatch h
    · exact Or.inr h

theorem Cut.append {u r : List UInt8} (hu : Cut u) (hr : Cut r) : Cut (u ++ r) := by
  cases u with
  | nil => exact hr
  | cons c u =>
    rcases hu with hu | hu
    · nomatch hu
    · exact Or.inr hu

/-- `t` is `s`, or a path below it. -/
def Within (s t : CStr) : Prop := ∃ r, t.bytes = s.bytes ++ r ∧ Cut r

theorem Within.refl (s : CStr) : Within s s := ⟨[], (List.append_nil _).symm, Or.inl rfl⟩

theorem Within.trans {s t u : CStr} (h : Within s t) (h' : Within t u) : Within s u := by
  obtain ⟨r, hr, hcut⟩ := h
  obtain ⟨r', hr', hcut'⟩ := h'
  refine ⟨r ++ r', ?_, hcut.append hcut'⟩
  rw [hr', hr, List.append_assoc]

/-- Of two directories above a path one is above the other. -/
theorem Within.linear {s t u : CStr} (hs : Within s u) (ht : Within t u) : Within s t ∨ Within t s := by
  obtain ⟨r, hr, hcut⟩ := hs
  obtain ⟨r', hr', hcut'⟩ := ht
  rcases List.append_eq_append_iff.mp (hr.symm.trans hr') with ⟨v, hv, hrv⟩ | ⟨v, hv, hrv⟩
  · rw [hrv] at hcut
    exact Or.inl ⟨v, hv, hcut.left⟩
  · rw [hrv] at hcut'
    exact Or.inr ⟨v, hv, hcut'.left⟩

/-- `strncmp(s, t, strlen(s)) == 0 && (t[strlen(s)] == '/' || t[strlen(s)] == '\0')`. -/
theorem strncmp_within (s t : CStr) :
    (strncmp s t s.strlen = 0 ∧ (t.charAt s.strlen = some SLASH ∨ t.charAt s.strlen = some 0)) ↔
      Within s t := by
  have hpre : strncmp s t s.strlen = 0 ↔ s.bytes <+: t.bytes :=
    strncmpLoop_eq_zero_left s.noNul t.noNul
  rw [hpre]
  constructor
  · rintro ⟨⟨r, hr⟩, hbyte⟩
    refine ⟨r, hr.symm, ?_⟩
    cases r with
    | nil => exact Or.inl rfl
    | cons c r =>
      have hc : t.charAt s.strlen = some c := by
        unfold CStr.charAt CStr.strlen
        rw [← hr, if_neg (by simp), List.getElem?_append_right (Nat.le_refl _), Nat.sub_self]
        rfl
      rw [hc] at hbyte
      rcases hbyte with h | h
      · exact Or.inr h
      · have hzero : c ∈ t.bytes := by
          rw [← hr]
          exact List.mem_append_right _ List.mem_cons_self
        rw [Option.some.inj h] at hzero
        exact absurd hzero t.noNul
  · rintro ⟨r, hr, hcut⟩
    refine ⟨⟨r, hr.symm⟩, ?_⟩
    cases r with
    | nil =>
      rw [List.append_nil] at hr
      refine Or.inr ?_
      unfold CStr.charAt CStr.strlen
      rw [hr, if_pos rfl]
    | cons c r =>
      rcases hcut with h | h
      · nomatch h
      · refine Or.inl ?_
        unfold CStr.charAt CStr.strlen
        rw [hr, if_neg (by simp), List.getElem?_append_right (Nat.le_refl _), Nat.sub_self]
        exact h

/-! ## Directories -/

/-- The names on the way, each behind a slash. -/
def tailOf (ns : List FileName) : List UInt8 := ns.flatMap fun n => SLASH :: n.bytes

/-- A starting point, and the names that lead from there. -/
structure DirPath where
  root : CStr
  names : List FileName
deriving DecidableEq

/-- The directory `n` in a directory. -/
def DirPath.child (p : DirPath) (n : FileName) : DirPath := { p with names := p.names ++ [n] }

theorem tailOf_noNul (ns : List FileName) : 0 ∉ tailOf ns := by
  intro h
  obtain ⟨n, -, hn⟩ := List.mem_flatMap.mp h
  rcases List.mem_cons.mp hn with h | h
  · exact absurd h (by decide)
  · exact n.valid.2.2.1 h

/-- The path of a directory. -/
def DirPath.str (p : DirPath) : CStr := p.root.append ⟨tailOf p.names, tailOf_noNul p.names⟩

theorem tailOf_append (ns ms : List FileName) : tailOf (ns ++ ms) = tailOf ns ++ tailOf ms :=
  List.flatMap_append

theorem cut_tailOf (ns : List FileName) : Cut (tailOf ns) := by
  cases ns with
  | nil => exact Or.inl rfl
  | cons n ns => exact Or.inr rfl

@[simp] theorem DirPath.str_bytes (p : DirPath) : p.str.bytes = p.root.bytes ++ tailOf p.names := rfl

theorem DirPath.str_root (r : CStr) : DirPath.str ⟨r, []⟩ = r := CStr.ext (List.append_nil _)

theorem DirPath.str_child (p : DirPath) (n : FileName) : (p.child n).str = p.str.slash n.str := by
  apply CStr.ext
  show p.root.bytes ++ tailOf (p.names ++ [n]) = p.root.bytes ++ tailOf p.names ++ SLASH :: n.bytes
  rw [tailOf_append, ← List.append_assoc]
  simp [tailOf]

theorem DirPath.child_inj {p q : DirPath} {n m : FileName} (h : p.child n = q.child m) : p = q ∧ n = m := by
  obtain ⟨r, ns⟩ := p
  obtain ⟨r', ms⟩ := q
  obtain ⟨rfl, hnames⟩ := DirPath.mk.inj h
  obtain ⟨rfl, hn⟩ := List.append_inj' hnames rfl
  exact ⟨rfl, List.singleton_inj.mp hn⟩

/-- The directory a directory is in, and its name there; a starting point is in none. -/
def DirPath.split? (p : DirPath) : Option (DirPath × FileName) :=
  p.names.getLast?.map fun n => (⟨p.root, p.names.dropLast⟩, n)

theorem DirPath.split?_eq_some {p q : DirPath} {n : FileName} : p.split? = some (q, n) ↔ p = q.child n := by
  obtain ⟨r, ns⟩ := p
  obtain ⟨r', ms⟩ := q
  unfold DirPath.split? DirPath.child
  dsimp only
  rw [Option.map_eq_some_iff]
  constructor
  · rintro ⟨m, hm, heq⟩
    obtain ⟨hpath, rfl⟩ := Prod.mk.inj heq
    obtain ⟨rfl, rfl⟩ := DirPath.mk.inj hpath
    rw [List.dropLast_append_getLast? m hm]
  · intro h
    obtain ⟨rfl, rfl⟩ := DirPath.mk.inj h
    exact ⟨n, List.getLast?_concat, by rw [List.dropLast_concat]⟩

theorem DirPath.split?_eq_none {p : DirPath} : p.split? = none ↔ p.names = [] := by
  unfold DirPath.split?
  rw [Option.map_eq_none_iff, List.getLast?_eq_none_iff]

/-- A name ends at the next slash. -/
theorem name_cancel {n m : FileName} {x y : List UInt8} (hx : Cut x) (hy : Cut y)
    (h : n.bytes ++ x = m.bytes ++ y) : n = m ∧ x = y := by
  have hname : ∀ (n : FileName) {x : List UInt8}, Cut x →
      (n.bytes ++ x).takeWhile (· ≠ SLASH) = n.bytes := by
    intro n x hx
    have hall : ∀ c ∈ n.bytes, decide (c ≠ SLASH) = true := by
      intro c hc
      exact decide_eq_true fun heq => n.valid.2.1 (heq ▸ hc)
    rw [List.takeWhile_append_of_pos hall]
    cases x with
    | nil => exact List.append_nil _
    | cons c x =>
      rcases hx with hx | hx
      · nomatch hx
      · simp [Option.some.inj hx]
  have hnm : n.bytes = m.bytes := by
    rw [← hname n hx, h, hname m hy]
  obtain rfl := FileName.ext hnm
  exact ⟨rfl, List.append_cancel_left h⟩

/-- Names that a path begins with. -/
theorem tailOf_cancel : ∀ {ns ms : List FileName} {r : List UInt8}, Cut r → tailOf ms = tailOf ns ++ r →
    ∃ t, ms = ns ++ t ∧ r = tailOf t
  | [], ms, r, _, h => ⟨ms, rfl, h.symm⟩
  | n :: ns, [], r, _, h => nomatch h
  | n :: ns, m :: ms, r, hr, h => by
    have hcons : m.bytes ++ tailOf ms = n.bytes ++ (tailOf ns ++ r) :=
      (List.tail_eq_of_cons_eq h).trans (List.append_assoc _ _ _)
    obtain ⟨rfl, hrest⟩ := name_cancel (cut_tailOf ms) ((cut_tailOf ns).append hr) hcons
    obtain ⟨t, rfl, ht⟩ := tailOf_cancel hr hrest
    exact ⟨t, rfl, ht⟩

/-- None of these starting points is below another. -/
def Apart (roots : List CStr) : Prop := ∀ r ∈ roots, ∀ s ∈ roots, Within r s → r = s

/-- `q` is `p` or a directory below it. -/
def DirPath.Above (p q : DirPath) : Prop := p.root = q.root ∧ p.names <+: q.names

instance (p q : DirPath) : Decidable (p.Above q) := inferInstanceAs (Decidable (_ ∧ _))

theorem DirPath.Above.refl (p : DirPath) : p.Above p := ⟨rfl, List.prefix_rfl⟩

theorem DirPath.Above.trans {p q r : DirPath} (h : p.Above q) (h' : q.Above r) : p.Above r :=
  ⟨h.1.trans h'.1, h.2.trans h'.2⟩

theorem DirPath.above_child (p : DirPath) (n : FileName) : p.Above (p.child n) :=
  ⟨rfl, List.prefix_append _ _⟩

/-- Above what is in a directory: the directory and what is above it, and the thing itself. -/
theorem DirPath.above_child_iff {p q : DirPath} {n : FileName} :
    p.Above (q.child n) ↔ p = q.child n ∨ p.Above q := by
  obtain ⟨r, ns⟩ := p
  unfold DirPath.Above DirPath.child
  dsimp only
  rw [List.prefix_concat_iff, DirPath.mk.injEq]
  constructor
  · rintro ⟨hroot, hnames | hnames⟩
    · exact Or.inl ⟨hroot, hnames⟩
    · exact Or.inr ⟨hroot, hnames⟩
  · rintro (⟨hroot, hnames⟩ | ⟨hroot, hnames⟩)
    · exact ⟨hroot, Or.inl hnames⟩
    · exact ⟨hroot, Or.inr hnames⟩

/-- What is below `src` is below `dst` instead. -/
def DirPath.rebase (src dst p : DirPath) : DirPath :=
  if src.Above p then ⟨dst.root, dst.names ++ p.names.drop src.names.length⟩ else p

theorem DirPath.rebase_above {src p : DirPath} (dst : DirPath) {t : List FileName} (hroot : src.root = p.root)
    (ht : p.names = src.names ++ t) : src.rebase dst p = ⟨dst.root, dst.names ++ t⟩ := by
  unfold DirPath.rebase
  rw [if_pos ⟨hroot, t, ht.symm⟩, ht, List.drop_left]

theorem DirPath.rebase_self (src dst : DirPath) : src.rebase dst src = dst := by
  rw [DirPath.rebase_above dst rfl (List.append_nil _).symm, List.append_nil]

/-- What is in a directory that moves moves with it. -/
theorem DirPath.rebase_child {src p : DirPath} (dst : DirPath) (n : FileName) (h : src.Above p) :
    src.rebase dst (p.child n) = (src.rebase dst p).child n := by
  obtain ⟨hroot, t, ht⟩ := h
  rw [DirPath.rebase_above dst hroot ht.symm]
  have hchild : (p.child n).names = src.names ++ (t ++ [n]) := by
    rw [← List.append_assoc, ht]
    rfl
  have hroot' : src.root = (p.child n).root := hroot
  rw [DirPath.rebase_above dst hroot' hchild]
  unfold DirPath.child
  rw [List.append_assoc]

/-- Directories do not meet, unless there is something below `dst` already. -/
theorem DirPath.rebase_inj {src dst p q : DirPath} (hp : ¬ src.Above p → ¬ dst.Above p)
    (hq : ¬ src.Above q → ¬ dst.Above q) (h : src.rebase dst p = src.rebase dst q) : p = q := by
  have hmoved : ∀ {p : DirPath}, src.Above p → dst.Above (src.rebase dst p) := by
    rintro p ⟨hroot, t, ht⟩
    rw [DirPath.rebase_above dst hroot ht.symm]
    exact ⟨rfl, List.prefix_append _ _⟩
  by_cases hpa : src.Above p
  · by_cases hqa : src.Above q
    · obtain ⟨hroot, t, ht⟩ := hpa
      obtain ⟨hroot', t', ht'⟩ := hqa
      rw [DirPath.rebase_above dst hroot ht.symm, DirPath.rebase_above dst hroot' ht'.symm] at h
      have htt : t = t' := List.append_cancel_left (DirPath.mk.inj h).2
      obtain ⟨r, ns⟩ := p
      obtain ⟨r', ms⟩ := q
      dsimp only at hroot hroot' ht ht'
      rw [← hroot, ← hroot', ← ht, ← ht', htt]
    · rw [show src.rebase dst q = q from if_neg hqa] at h
      exact absurd (h ▸ hmoved hpa) (hq hqa)
  · rw [show src.rebase dst p = p from if_neg hpa] at h
    by_cases hqa : src.Above q
    · exact absurd (h.symm ▸ hmoved hqa) (hp hpa)
    · rw [h]
      exact if_neg hqa

section

variable {roots : List CStr} {p q : DirPath}

/-- **Strings and directories**: a path that begins with that of a directory is that of a directory
    below it, and the rest are the names. -/
theorem bytes_of_within (hroots : Apart roots) (hp : p.root ∈ roots) (hq : q.root ∈ roots)
    {r : List UInt8} (hcut : Cut r) (h : q.str.bytes = p.str.bytes ++ r) :
    p.root = q.root ∧ ∃ t, q.names = p.names ++ t ∧ r = tailOf t := by
  have hpq : Within p.root q.str := by
    refine ⟨tailOf p.names ++ r, ?_, (cut_tailOf _).append hcut⟩
    rw [h, DirPath.str_bytes, List.append_assoc]
  have hqq : Within q.root q.str := ⟨tailOf q.names, rfl, cut_tailOf _⟩
  have hroot : p.root = q.root := by
    rcases hpq.linear hqq with h | h
    · exact hroots _ hp _ hq h
    · exact (hroots _ hq _ hp h).symm
  refine ⟨hroot, tailOf_cancel hcut ?_⟩
  rw [DirPath.str_bytes, DirPath.str_bytes, hroot, List.append_assoc] at h
  exact List.append_cancel_left h

theorem within_str (hroots : Apart roots) (hp : p.root ∈ roots) (hq : q.root ∈ roots) :
    Within p.str q.str ↔ p.Above q := by
  constructor
  · rintro ⟨r, hr, hcut⟩
    obtain ⟨hroot, t, ht, -⟩ := bytes_of_within hroots hp hq hcut hr
    exact ⟨hroot, t, ht.symm⟩
  · rintro ⟨hroot, t, ht⟩
    refine ⟨tailOf t, ?_, cut_tailOf t⟩
    rw [DirPath.str_bytes, DirPath.str_bytes, hroot, ← ht, tailOf_append, List.append_assoc]

/-- The path of a directory that moves: another beginning. -/
theorem str_rebase (dst : DirPath) (h : p.Above q) :
    (p.rebase dst q).str = dst.str.append (q.str.drop p.str.strlen) := by
  obtain ⟨hroot, t, ht⟩ := h
  apply CStr.ext
  have hq : q.str.bytes = p.str.bytes ++ tailOf t := by
    rw [DirPath.str_bytes, DirPath.str_bytes, ← hroot, ← ht, tailOf_append, List.append_assoc]
  show _ = dst.str.bytes ++ q.str.bytes.drop p.str.bytes.length
  rw [hq, List.drop_left, DirPath.rebase_above dst hroot ht.symm, DirPath.str_bytes, DirPath.str_bytes,
    tailOf_append, List.append_assoc]

/-- Different directories have different paths. -/
theorem str_inj (hroots : Apart roots) (hp : p.root ∈ roots) (hq : q.root ∈ roots)
    (h : p.str = q.str) : p = q := by
  have hbytes : q.str.bytes = p.str.bytes ++ [] := by rw [h, List.append_nil]
  obtain ⟨hroot, t, ht, hnil⟩ := bytes_of_within hroots hp hq (Or.inl rfl) hbytes
  have htnil : t = [] := by
    cases t with
    | nil => rfl
    | cons n t => nomatch hnil
  rw [htnil, List.append_nil] at ht
  obtain ⟨r, ns⟩ := p
  obtain ⟨r', ms⟩ := q
  dsimp only at hroot ht
  rw [hroot, ht]

end

end LinuxInterface
