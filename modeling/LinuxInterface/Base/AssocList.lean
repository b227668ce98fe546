/-
  Lists of definitions in which the first one counts.

  The entries of a list are arbitrary things; some of them define a key (`key a = some k`) and
  have a value.  The same key may be defined several times, and an entry need not define any.
  Seen from outside (`lookup`) such a list is a finite map; `put` (replace the first definition
  or append one) and `remove` (drop ALL definitions: otherwise a shadowed one would come to
  light) are update and deletion on that map.
-/
import Mathlib.Data.List.Basic

namespace LinuxInterface.AssocList

variable {α κ β : Type} [DecidableEq κ] (key : α → Option κ) (val : α → β)

/-- The value of the first definition of `k`. -/
def lookup (k : κ) : List α → Option β
  | [] => none
  | a :: as => if key a = some k then some (val a) else lookup k as

/-- Put `a` in the place of the first definition of `k`, or behind everything. -/
def put (k : κ) (a : α) : List α → List α
  | [] => [a]
  | b :: bs => if key b = some k then a :: bs else b :: put k a bs

/-- Drop all definitions of `k`. -/
def remove (k : κ) (as : List α) : List α := as.filter fun a => decide (key a ≠ some k)

variable {key val}

/-- `put` changes the map at one key. -/
theorem lookup_put {k : κ} {a : α} (ha : key a = some k) (k' : κ) (as : List α) :
    lookup key val k' (put key k a as) = if k' = k then some (val a) else lookup key val k' as := by
  induction as with
  | nil =>
    show (if key a = some k' then some (val a) else none) = _
    rw [ha]
    by_cases hk : k' = k
    · rw [if_pos hk, if_pos (by rw [hk])]
    · rw [if_neg hk, if_neg (fun h => hk (Option.some.inj h).symm)]
      rfl
  | cons b bs ih =>
    by_cases hb : key b = some k
    · -- here is the first definition; one of another key it is not
      have hput : put key k a (b :: bs) = a :: bs := if_pos hb
      rw [hput]
      show (if key a = some k' then some (val a) else lookup key val k' bs) =
        if k' = k then some (val a)
        else if key b = some k' then some (val b) else lookup key val k' bs
      rw [ha, hb]
      by_cases hk : k' = k
      · rw [if_pos hk, if_pos (by rw [hk])]
      · have hne : ¬ some k = some k' := fun h => hk (Option.some.inj h).symm
        rw [if_neg hk, if_neg hne, if_neg hne]
    · have hput : put key k a (b :: bs) = b :: put key k a bs := if_neg hb
      rw [hput]
      show (if key b = some k' then some (val b) else lookup key val k' (put key k a bs)) =
        if k' = k then some (val a)
        else if key b = some k' then some (val b) else lookup key val k' bs
      rw [ih]
      by_cases hk : k' = k
      · subst hk
        rw [if_neg hb, if_pos rfl, if_pos rfl]
      · rw [if_neg hk, if_neg hk]

theorem mem_put {k : κ} {a b : α} {as : List α} (h : b ∈ put key k a as) : b = a ∨ b ∈ as := by
  induction as with
  | nil => exact Or.inl (List.mem_singleton.mp h)
  | cons c cs ih =>
    unfold put at h
    split at h
    · rcases List.mem_cons.mp h with h | h
      · exact Or.inl h
      · exact Or.inr (List.mem_cons_of_mem c h)
    · rcases List.mem_cons.mp h with h | h
      · exact Or.inr (by simp [h])
      · rcases ih h with h | h
        · exact Or.inl h
        · exact Or.inr (List.mem_cons_of_mem c h)

/-- `remove` takes one key out of the map. -/
theorem lookup_remove (k k' : κ) (as : List α) :
    lookup key val k' (remove key k as) = if k' = k then none else lookup key val k' as := by
  induction as with
  | nil => exact (ite_self none).symm
  | cons b bs ih =>
    by_cases hb : key b = some k
    · have hrem : remove key k (b :: bs) = remove key k bs :=
        List.filter_cons_of_neg (by simp [hb])
      rw [hrem, ih]
      by_cases hk : k' = k
      · rw [if_pos hk, if_pos hk]
      · have hne : ¬ key b = some k' := fun h => hk (Option.some.inj (h.symm.trans hb))
        rw [if_neg hk, if_neg hk]
        exact (if_neg hne).symm
    · have hrem : remove key k (b :: bs) = b :: remove key k bs :=
        List.filter_cons_of_pos (by simp [hb])
      rw [hrem]
      show (if key b = some k' then some (val b) else lookup key val k' (remove key k bs)) = _
      rw [ih]
      by_cases hk : k' = k
      · subst hk
        rw [if_neg hb, if_pos rfl]
        exact (if_pos rfl).symm
      · rw [if_neg hk, if_neg hk]
        rfl

/-- The map depends on the keys and values of the entries only. -/
theorem lookup_congr {key' : α → Option κ} {val' : α → β} {k : κ} {as : List α}
    (h : ∀ a ∈ as, key' a = key a ∧ val' a = val a) :
    lookup key' val' k as = lookup key val k as := by
  induction as with
  | nil => rfl
  | cons a as ih =>
    obtain ⟨hk, hv⟩ := h a List.mem_cons_self
    show (if key' a = some k then some (val' a) else lookup key' val' k as) = _
    rw [hk, hv, ih fun b hb => h b (List.mem_cons_of_mem a hb)]
    rfl

end LinuxInterface.AssocList
