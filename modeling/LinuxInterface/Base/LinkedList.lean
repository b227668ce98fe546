/-
  Doubly linked lists in a store, and the loops that walk them.

  A store gives every address `a : ι` a successor `next a` and a predecessor `prev a`.  Three
  notions describe what a program sees when it follows the links:

  * `Lseg next p as q`  — following `next` from `p` visits exactly `as` and arrives at `q`;
  * `Chain next nil p as` — the segment ends at the null pointer and never meets it before;
  * `BackLinks key prev Q pr bs` — every node of `bs` that satisfies `Q` has its predecessor in
    the list (for the first one: `pr`) as its `prev`.

  `Q` is there because a program may keep some back links exact and let others go stale; the
  fully linked list is `Q := fun _ => True`.

  The lemmas are the ones a list program is verified with: segments concatenate
  (`lseg_append`) and depend only on the cells they visit (`Lseg.congr`), a list that ends meets
  no cell twice (`Chain.nodup`) and its cells are those met on the walk (`OnList`), and a loop
  that goes on along `next` comes out at the segment's end with its accumulator folded over it
  (`loopN_lseg`).
-/
import LinuxInterface.Base.Loop
import Mathlib.Data.List.Basic
import Mathlib.Data.List.Induction

namespace LinuxInterface

variable {ι : Type} {σ ρ : Type}

/-! ## Segments -/

/-- Following `next` from `p` visits `as` and arrives at `q`. -/
def Lseg (next : ι → ι) : ι → List ι → ι → Prop
  | p, [], q => p = q
  | p, a :: as, q => p = a ∧ Lseg next (next a) as q

/-- The whole list from `p`: a segment to the null pointer that does not pass through it. -/
def Chain (next : ι → ι) (nil p : ι) (as : List ι) : Prop :=
  Lseg next p as nil ∧ nil ∉ as

@[simp] theorem lseg_nil {next : ι → ι} {p q : ι} : Lseg next p [] q ↔ p = q := Iff.rfl

@[simp] theorem lseg_cons {next : ι → ι} {p q a : ι} {as : List ι} :
    Lseg next p (a :: as) q ↔ p = a ∧ Lseg next (next a) as q := Iff.rfl

theorem lseg_append {next : ι → ι} {q : ι} {r : List ι} : ∀ {l : List ι} {p : ι},
    Lseg next p (l ++ r) q ↔ ∃ m, Lseg next p l m ∧ Lseg next m r q
  | [], p => by
    constructor
    · intro h; exact ⟨p, rfl, h⟩
    · rintro ⟨m, hm, h⟩; rw [lseg_nil] at hm; rw [hm]; exact h
  | a :: l, p => by
    rw [List.cons_append, lseg_cons, lseg_append]
    constructor
    · rintro ⟨hp, m, hl, hr⟩; exact ⟨m, ⟨hp, hl⟩, hr⟩
    · rintro ⟨m, ⟨hp, hl⟩, hr⟩; exact ⟨hp, m, hl, hr⟩

/-- Cut a segment at one of its cells. -/
theorem lseg_mid {next : ι → ι} {p q a : ι} {l r : List ι} :
    Lseg next p (l ++ a :: r) q ↔ Lseg next p l a ∧ Lseg next (next a) r q := by
  rw [lseg_append]
  constructor
  · rintro ⟨m, hl, hm, hr⟩; rw [hm] at hl; exact ⟨hl, hr⟩
  · rintro ⟨hl, hr⟩; exact ⟨a, hl, rfl, hr⟩

/-- A segment reads the `next` of the cells it visits and of no others. -/
theorem Lseg.congr {next next' : ι → ι} {q : ι} : ∀ {as : List ι} {p : ι},
    Lseg next p as q → (∀ a ∈ as, next' a = next a) → Lseg next' p as q
  | [], _, h, _ => h
  | a :: as, _, ⟨hp, h⟩, hag => by
    refine ⟨hp, ?_⟩
    rw [hag a List.mem_cons_self]
    exact h.congr fun b hb => hag b (List.mem_cons_of_mem a hb)

/-- Following the links is deterministic: two whole lists from one pointer are the same. -/
theorem Chain.unique {next : ι → ι} {nil : ι} : ∀ {as bs : List ι} {p : ι},
    Chain next nil p as → Chain next nil p bs → as = bs
  | [], [], _, _, _ => rfl
  | [], b :: bs, p, ⟨hp, _⟩, ⟨⟨hb, _⟩, hnil⟩ => by
    rw [lseg_nil] at hp
    rw [hp] at hb
    exact absurd (hb ▸ List.mem_cons_self) hnil
  | a :: as, [], p, ⟨⟨ha, _⟩, hnil⟩, ⟨hp, _⟩ => by
    rw [lseg_nil] at hp
    rw [hp] at ha
    exact absurd (ha ▸ List.mem_cons_self) hnil
  | a :: as, b :: bs, p, ⟨⟨ha, has⟩, hna⟩, ⟨⟨hb, hbs⟩, hnb⟩ => by
    have hab : a = b := ha.symm.trans hb
    subst hab
    have h := Chain.unique
      ⟨has, fun h => hna (List.mem_cons_of_mem a h)⟩ ⟨hbs, fun h => hnb (List.mem_cons_of_mem a h)⟩
    rw [h]

/-- No cell comes up twice: the walk would go on from the second time as from the first, and
    never end. -/
theorem Chain.nodup {next : ι → ι} {nil : ι} : ∀ {as : List ι} {p : ι},
    Chain next nil p as → as.Nodup
  | [], _, _ => List.nodup_nil
  | a :: as, p, ⟨⟨_, has⟩, hnil⟩ => by
    have htail : Chain next nil (next a) as := ⟨has, fun h => hnil (List.mem_cons_of_mem a h)⟩
    refine List.nodup_cons.mpr ⟨fun hmem => ?_, htail.nodup⟩
    obtain ⟨l, r, rfl⟩ := List.append_of_mem hmem
    have hagain : Chain next nil (next a) r := by
      refine ⟨(lseg_mid.mp has).2, fun h => htail.2 ?_⟩
      simp [h]
    have hlen := congrArg List.length (htail.unique hagain)
    simp only [List.length_append, List.length_cons] at hlen
    omega

/-- The addresses met from `p` on before the null pointer, whether or not the walk ends. -/
inductive OnList (next : ι → ι) (nil p : ι) : ι → Prop where
  | head : p ≠ nil → OnList next nil p p
  | next {a : ι} : OnList next nil p a → next a ≠ nil → OnList next nil p (next a)

theorem Chain.mem_of_onList {next : ι → ι} {nil p b : ι} {as : List ι} (h : Chain next nil p as)
    (hb : OnList next nil p b) : b ∈ as := by
  induction hb with
  | head hp =>
    cases as with
    | nil => exact absurd h.1 hp
    | cons a as => rw [h.1.1]; exact List.mem_cons_self
  | @next a _ hne ih =>
    obtain ⟨l, r, rfl⟩ := List.append_of_mem ih
    have hr := (lseg_mid.mp h.1).2
    cases r with
    | nil => exact absurd hr hne
    | cons c r => rw [hr.1]; simp

theorem Chain.onList_of_mem {next : ι → ι} {nil p b : ι} {as : List ι} (h : Chain next nil p as)
    (hb : b ∈ as) : OnList next nil p b := by
  obtain ⟨l, r, rfl⟩ := List.append_of_mem hb
  clear hb
  induction l using List.reverseRecOn generalizing b r with
  | nil =>
    have hp : p = b := h.1.1
    have hne : p ≠ nil := fun e => h.2 (by simp [← hp, e])
    rw [← hp]
    exact OnList.head hne
  | append_singleton l c ih =>
    -- the cell before `b` is `c`, and `c` is on the list by the induction hypothesis
    have hc : OnList next nil p c := ih (b :: r) (by simpa using h)
    have hseg : Lseg next p (l ++ c :: (b :: r)) nil := by simpa using h.1
    have hcb : next c = b := (lseg_mid.mp hseg).2.1
    rw [← hcb]
    refine OnList.next hc ?_
    intro hnil
    exact h.2 (by simp [← hcb, hnil])

theorem OnList.ne_nil {next : ι → ι} {nil p b : ι} (h : OnList next nil p b) : b ≠ nil := by
  cases h with
  | head hne => exact hne
  | next _ hne => exact hne

theorem not_onList_nil {next : ι → ι} {nil b : ι} : ¬ OnList next nil nil b := by
  intro h
  induction h with
  | head hne => exact hne rfl
  | next _ _ ih => exact ih

theorem OnList.eq_or_next {next : ι → ι} {nil p b : ι} (h : OnList next nil p b) :
    b = p ∨ OnList next nil (next p) b := by
  induction h with
  | head _ => exact Or.inl rfl
  | @next a _ hne ih =>
    rcases ih with rfl | ih
    · exact Or.inr (OnList.head hne)
    · exact Or.inr (OnList.next ih hne)

/-- A list has one end. -/
theorem OnList.last_unique {next : ι → ι} {nil p a b : ι} (ha : OnList next nil p a)
    (hb : OnList next nil p b) (hna : next a = nil) (hnb : next b = nil) : a = b := by
  -- `b` lies ahead of every cell of the list, in particular of `a`, which has nothing ahead
  have hahead : OnList next nil a b := by
    clear hna
    induction ha with
    | head _ => exact hb
    | next _ hne ih =>
      rcases ih.eq_or_next with rfl | h
      · exact absurd hnb hne
      · exact h
  rcases hahead.eq_or_next with h | h
  · exact h.symm
  · rw [hna] at h
    exact absurd h not_onList_nil

/-! ## Walking a segment -/

/-- **The walking rule.**  A loop on a pointer and an accumulator that, at every cell of the
    segment, goes on to the next cell and feeds the cell to the accumulator, gets to the end
    of the segment with the accumulator folded over it, one round a cell. -/
theorem loopN_lseg {α : Type} {body : ι × α → Turn (ι × α) ρ} {next : ι → ι} {f : α → ι → α}
    {q : ι} : ∀ {as : List ι} {p : ι} (acc : α), Lseg next p as q →
      (∀ a ∈ as, ∀ x, body (a, x) = .again (next a, f x a)) → ∀ n,
      loopN body (n + as.length) (p, acc) = loopN body n (q, as.foldl f acc)
  | [], p, acc, h, _, n => by
    rw [lseg_nil] at h
    rw [h]
    rfl
  | a :: as, p, acc, ⟨hp, h⟩, hbody, n => by
    rw [hp, List.length_cons, ← Nat.add_assoc,
      loopN_again (hbody a List.mem_cons_self acc)]
    exact loopN_lseg (f acc a) h (fun b hb => hbody b (List.mem_cons_of_mem a hb)) n

/-! ## Back links -/

variable {β : Type} {key : β → ι}

/-- Every node of `bs` that satisfies `Q` points back to the one before it (the first: to
    `pr`); `key` is the address of a node. -/
def BackLinks (key : β → ι) (prev : ι → ι) (Q : β → Prop) : ι → List β → Prop
  | _, [] => True
  | pr, b :: bs => (Q b → prev (key b) = pr) ∧ BackLinks key prev Q (key b) bs

@[simp] theorem backLinks_nil {prev : ι → ι} {Q : β → Prop} {pr : ι} :
    BackLinks key prev Q pr [] := trivial

@[simp] theorem backLinks_cons {prev : ι → ι} {Q : β → Prop} {pr : ι} {b : β} {bs : List β} :
    BackLinks key prev Q pr (b :: bs) ↔
      (Q b → prev (key b) = pr) ∧ BackLinks key prev Q (key b) bs := Iff.rfl

theorem backLinks_append {prev : ι → ι} {Q : β → Prop} {r : List β} : ∀ {l : List β} {pr : ι},
    BackLinks key prev Q pr (l ++ r) ↔
      BackLinks key prev Q pr l ∧ BackLinks key prev Q ((l.map key).getLastD pr) r
  | [], pr => by simp
  | b :: l, pr => by
    rw [List.cons_append, backLinks_cons, backLinks_append, backLinks_cons, and_assoc,
      List.map_cons, List.getLastD_cons]

/-- Back links read the `prev` of the nodes they speak about and of no others. -/
theorem BackLinks.congr {prev prev' : ι → ι} {Q : β → Prop} : ∀ {bs : List β} {pr : ι},
    BackLinks key prev Q pr bs → (∀ b ∈ bs, Q b → prev' (key b) = prev (key b)) →
    BackLinks key prev' Q pr bs
  | [], _, _, _ => trivial
  | b :: bs, _, ⟨hb, h⟩, hag => by
    refine ⟨fun hQ => ?_, h.congr fun c hc => hag c (List.mem_cons_of_mem b hc)⟩
    rw [hag b List.mem_cons_self hQ]
    exact hb hQ

/-- Speaking about fewer nodes. -/
theorem BackLinks.mono {prev : ι → ι} {Q Q' : β → Prop} (hQ : ∀ b, Q' b → Q b) :
    ∀ {bs : List β} {pr : ι}, BackLinks key prev Q pr bs → BackLinks key prev Q' pr bs
  | [], _, _ => trivial
  | b :: _, _, ⟨hb, h⟩ => ⟨fun hb' => hb (hQ b hb'), h.mono hQ⟩

/-- What precedes the list matters to its first node only. -/
theorem BackLinks.restart {prev : ι → ι} {Q : β → Prop} {pr pr' : ι} : ∀ {bs : List β},
    BackLinks key prev Q pr bs → (∀ b ∈ bs.head?, ¬ Q b) → BackLinks key prev Q pr' bs
  | [], _, _ => trivial
  | b :: bs, ⟨_, h⟩, hhead => by
    refine ⟨fun hQ => ?_, h⟩
    exact absurd hQ (hhead b rfl)

end LinuxInterface
