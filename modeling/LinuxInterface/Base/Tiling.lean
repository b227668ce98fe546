/-
  Runs of intervals laid out in order.

  `Tiles R lo len x bs y`: the intervals `[lo b, lo b + len b)` of `bs`, taken in order, run from
  `x` to `y`, the end of each being `R`-related to the start of the next.  Two readings of `R`
  matter: with `Eq` the intervals cover `[x, y)` edge to edge, with `≤` there may be room between
  them; `GapRel` is what the two have in common.

  The consequences a program that carves up a region of memory needs are the order ones: every
  tile lies inside `[x, y)` (`Tiles.bounds`), so tiles of positive length have distinct starts
  (`Tiles.lo_inj`) and two different ones never overlap (`Tiles.disjoint`).
-/
import Mathlib.Algebra.GroupWithZero.Nat
import Mathlib.Data.List.Basic

namespace LinuxInterface

/-- How the end of a tile may relate to the start of the next one. -/
structure GapRel (R : Nat → Nat → Prop) : Prop where
  refl : ∀ x, R x x
  trans : ∀ {x y z}, R x y → R y z → R x z
  /-- Growing both sides by the same amount changes nothing. -/
  add : ∀ {x y} (n : Nat), R x y → R (x + n) (y + n)
  le : ∀ {x y}, R x y → x ≤ y

/-- Edge to edge. -/
theorem GapRel.eq : GapRel Eq where
  refl _ := rfl
  trans := Eq.trans
  add n h := congrArg (· + n) h
  le := Nat.le_of_eq

/-- In order, with room in between. -/
theorem GapRel.room : GapRel (· ≤ ·) where
  refl := Nat.le_refl
  trans := Nat.le_trans
  add n h := Nat.add_le_add_right h n
  le h := h

variable {β : Type} {R : Nat → Nat → Prop} {lo len : β → Nat}

/-- The intervals of `bs` run from `x` to `y`, in order. -/
def Tiles (R : Nat → Nat → Prop) (lo len : β → Nat) : Nat → List β → Nat → Prop
  | x, [], y => R x y
  | x, b :: bs, y => R x (lo b) ∧ Tiles R lo len (lo b + len b) bs y

@[simp] theorem tiles_nil {x y : Nat} : Tiles R lo len x [] y ↔ R x y := Iff.rfl

@[simp] theorem tiles_cons {x y : Nat} {b : β} {bs : List β} :
    Tiles R lo len x (b :: bs) y ↔ R x (lo b) ∧ Tiles R lo len (lo b + len b) bs y := Iff.rfl

/-- Cut a run at one of its tiles. -/
theorem tiles_mid {y : Nat} {b : β} {r : List β} : ∀ {l : List β} {x : Nat},
    Tiles R lo len x (l ++ b :: r) y ↔
      Tiles R lo len x l (lo b) ∧ Tiles R lo len (lo b + len b) r y
  | [], x => Iff.rfl
  | a :: l, x => by
    rw [List.cons_append, tiles_cons, tiles_mid, tiles_cons, and_assoc]

theorem Tiles.weaken (hR : GapRel R) {r : List β} {x z y : Nat} (hxz : R x z)
    (h : Tiles R lo len z r y) : Tiles R lo len x r y := by
  cases r with
  | nil => exact hR.trans hxz h
  | cons b r => exact ⟨hR.trans hxz h.1, h.2⟩

theorem tiles_append (hR : GapRel R) {y : Nat} {r : List β} : ∀ {l : List β} {x : Nat},
    Tiles R lo len x (l ++ r) y ↔ ∃ z, Tiles R lo len x l z ∧ Tiles R lo len z r y
  | [], x => by
    constructor
    · intro h; exact ⟨x, hR.refl x, h⟩
    · rintro ⟨z, hz, h⟩; exact h.weaken hR hz
  | b :: l, x => by
    rw [List.cons_append, tiles_cons, tiles_append hR]
    constructor
    · rintro ⟨hb, z, hl, hr⟩; exact ⟨z, ⟨hb, hl⟩, hr⟩
    · rintro ⟨z, ⟨hb, hl⟩, hr⟩; exact ⟨hb, z, hl, hr⟩

theorem Tiles.le (hR : GapRel R) : ∀ {bs : List β} {x y : Nat}, Tiles R lo len x bs y → x ≤ y
  | [], _, _, h => hR.le h
  | _ :: _, _, _, ⟨hb, h⟩ => by
    have h1 := hR.le hb
    have h2 := h.le hR
    omega

/-- Every tile lies inside the region. -/
theorem Tiles.bounds (hR : GapRel R) {bs : List β} {x y : Nat} {b : β}
    (h : Tiles R lo len x bs y) (hb : b ∈ bs) : x ≤ lo b ∧ lo b + len b ≤ y := by
  obtain ⟨l, r, rfl⟩ := List.append_of_mem hb
  obtain ⟨hl, hr⟩ := tiles_mid.mp h
  exact ⟨hl.le hR, hr.le hR⟩

/-- Two tiles of positive length that start at one place are the same tile. -/
theorem Tiles.lo_inj (hR : GapRel R) {bs : List β} {x y : Nat} {a b : β}
    (h : Tiles R lo len x bs y) (hpos : ∀ c ∈ bs, 0 < len c) (ha : a ∈ bs) (hb : b ∈ bs)
    (hab : lo a = lo b) : a = b := by
  obtain ⟨l, r, rfl⟩ := List.append_of_mem ha
  obtain ⟨hl, hr⟩ := tiles_mid.mp h
  have hapos := hpos a ha
  rcases List.mem_append.mp hb with hbl | hbr
  · have hb1 := (hl.bounds hR hbl).2
    have hb2 := hpos b hb
    omega
  · rcases List.mem_cons.mp hbr with hba | hbr
    · exact hba.symm
    · have hb1 := (hr.bounds hR hbr).1
      omega

/-- The tiles stand one behind the other. -/
theorem Tiles.pairwise (hR : GapRel R) : ∀ {bs : List β} {x y : Nat}, Tiles R lo len x bs y →
    bs.Pairwise fun a b => lo a + len a ≤ lo b
  | [], _, _, _ => List.Pairwise.nil
  | _ :: _, _, _, ⟨_, h⟩ => List.Pairwise.cons (fun _ hb => (h.bounds hR hb).1) (h.pairwise hR)

/-- Two different tiles do not overlap. -/
theorem Tiles.disjoint (hR : GapRel R) {bs : List β} {x y : Nat} {a b : β}
    (h : Tiles R lo len x bs y) (ha : a ∈ bs) (hb : b ∈ bs) (hab : a ≠ b) :
    lo a + len a ≤ lo b ∨ lo b + len b ≤ lo a := by
  obtain ⟨l, r, rfl⟩ := List.append_of_mem ha
  obtain ⟨hl, hr⟩ := tiles_mid.mp h
  rcases List.mem_append.mp hb with hbl | hbr
  · exact Or.inr (hl.bounds hR hbl).2
  · rcases List.mem_cons.mp hbr with hba | hbr
    · exact absurd hba.symm hab
    · exact Or.inl (hr.bounds hR hbr).1

/-- The tiles together are at most as long as the region. -/
theorem Tiles.sum_le (hR : GapRel R) : ∀ {bs : List β} {x y : Nat}, Tiles R lo len x bs y →
    x + (bs.map len).sum ≤ y
  | [], _, _, h => hR.le h
  | b :: bs, x, y, ⟨hx, h⟩ => by
    have ih := h.sum_le hR
    have hle := hR.le hx
    rw [List.map_cons, List.sum_cons]
    omega

/-- The number of tiles is at most the size of the region. -/
theorem Tiles.length_le (hR : GapRel R) : ∀ {bs : List β} {x y : Nat}, Tiles R lo len x bs y →
    (∀ c ∈ bs, 0 < len c) → x + bs.length ≤ y
  | [], _, _, h, _ => hR.le h
  | b :: bs, x, y, ⟨hx, h⟩, hpos => by
    have hb := hpos b List.mem_cons_self
    have ih := h.length_le hR fun c hc => hpos c (List.mem_cons_of_mem b hc)
    have hle := hR.le hx
    rw [List.length_cons]
    omega

end LinuxInterface
