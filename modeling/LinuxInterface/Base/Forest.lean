/-
  The tree that a table of entries with parent links describes.

  Every entry of a table has an identifier and names the identifier of its parent.  Nothing else is
  asked of the links: a parent may be missing from the table, and links may run in circles.

  1. **Chains** — `Reaches t r d e`: from the entry `e` the links lead to `r` in `d` steps.
     With distinct identifiers a chain is determined by where it begins (`Reaches.top_unique`), and
     by its length too if it does not pass through `r` on the way (`Reaches.depth_unique`).

  2. **Trees** — `IsForest t r ts`: the trees `ts` have the children of `r` at their roots, in the
     order of the table, and so on below.  `grow` builds them by searching the table over and
     over again; it needs no marks, and a depth of the number of entries is enough (`grow_isForest`).

  3. **Preorder** — the entries of such trees, each with its depth, are those that reach `r`
     (`mem_preorder_iff`), and none occurs twice (`nodup_preorder`).
-/
import Mathlib.Data.List.Perm.Subperm
import Mathlib.Data.List.Nodup

namespace LinuxInterface

variable {α ι : Type}

/-- A rose tree. -/
inductive RoseTree (α : Type) where
  | node (label : α) (children : List (RoseTree α))

namespace RoseTree

def label : RoseTree α → α
  | node a _ => a

def children : RoseTree α → List (RoseTree α)
  | node _ ts => ts

end RoseTree

mutual

/-- A tree line by line, every node before what is below it, with its depth. -/
def RoseTree.preorder (d : Nat) : RoseTree α → List (Nat × α)
  | .node a ts => (d, a) :: preorderAll (d + 1) ts

/-- A list of trees, one after the other. -/
def preorderAll (d : Nat) : List (RoseTree α) → List (Nat × α)
  | [] => []
  | t :: ts => t.preorder d ++ preorderAll d ts

end

/-- The links of a table: what an entry is called, and what its parent is. -/
structure Links (α ι : Type) where
  id : α → ι
  parent : α → ι

namespace Links

variable (L : Links α ι)

/-- From `e` the links lead to `r` in `d` steps, the first of which is that to the parent of `e`. -/
inductive Reaches (t : List α) (r : ι) : Nat → α → Prop where
  | child {e : α} (mem : e ∈ t) (link : L.parent e = r) : Reaches t r 1 e
  | next {d : Nat} {e e' : α} (mem : e ∈ t) (link : L.parent e = L.id e')
      (up : Reaches t r d e') : Reaches t r (d + 1) e

/-! ## Chains -/

section

variable {L : Links α ι} {t : List α} {r : ι} {d d' : Nat} {e c c' : α}

theorem Reaches.mem (h : L.Reaches t r d e) : e ∈ t := by
  cases h with
  | child mem _ => exact mem
  | next mem _ _ => exact mem

theorem Reaches.pos (h : L.Reaches t r d e) : 0 < d := by
  cases h with
  | child _ _ => exact Nat.one_pos
  | next _ _ _ => exact Nat.succ_pos _

/-- No chain to `r` passes through `r` on its way. -/
def RootFree (L : Links α ι) (t : List α) (r : ι) : Prop := ∀ d e, L.Reaches t r d e → L.id e ≠ r

/-- The identifiers are distinct. -/
def Distinct (L : Links α ι) (t : List α) : Prop := (t.map L.id).Nodup

theorem Distinct.eq (hL : L.Distinct t) (hc : c ∈ t) (hc' : c' ∈ t) (h : L.id c = L.id c') :
    c = c' :=
  List.inj_on_of_nodup_map hL hc hc' h

/-- Where a chain of a given length ends is determined by where it begins. -/
theorem Reaches.top_unique (hL : L.Distinct t) (hc : c ∈ t) (hc' : c' ∈ t)
    (h : L.Reaches t (L.id c) d e) (h' : L.Reaches t (L.id c') d e) : c = c' := by
  induction h with
  | child _ link =>
    cases h' with
    | child _ link' => exact hL.eq hc hc' (link.symm.trans link')
    | next _ _ up => exact absurd up.pos (Nat.lt_irrefl 0)
  | next _ link up ih =>
    cases h' with
    | child _ _ => exact absurd up.pos (Nat.lt_irrefl 0)
    | next _ link' up' =>
      obtain rfl := hL.eq up'.mem up.mem (link'.symm.trans link)
      exact ih up'

/-- The length of a chain to `r` is determined by where it begins. -/
theorem Reaches.depth_unique (hL : L.Distinct t) (hr : L.RootFree t r)
    (h : L.Reaches t r d e) (h' : L.Reaches t r d' e) : d = d' := by
  induction h generalizing d' with
  | child _ link =>
    cases h' with
    | child _ _ => rfl
    | next _ link' up' => exact absurd (link'.symm.trans link) (hr _ _ up')
  | next _ link up ih =>
    cases h' with
    | child _ link' => exact absurd (link.symm.trans link') (hr _ _ up)
    | next _ link' up' =>
      obtain rfl := hL.eq up'.mem up.mem (link'.symm.trans link)
      rw [ih up']

/-- The same holds below every entry that reaches `r`. -/
theorem RootFree.below (hL : L.Distinct t) (hr : L.RootFree t r) (hc : L.Reaches t r d c) :
    L.RootFree t (L.id c) := by
  intro k e h hid
  obtain rfl := hL.eq h.mem hc.mem hid
  have hlong : ∀ {k : Nat} {x : α}, L.Reaches t (L.id e) k x → L.Reaches t r (d + k) x := by
    intro k x hx
    induction hx with
    | child mem link => exact .next mem link hc
    | next mem link _ ih => exact .next mem link ih
  have heq := hc.depth_unique hL hr (hlong h)
  have hpos := h.pos
  omega

end

/-! ## Trees -/

variable [DecidableEq ι]

/-- The children of `r`, in the order of the table. -/
def childrenOf (t : List α) (r : ι) : List α := t.filter fun e => L.parent e = r

/-- `ts` are the trees that hang from `r`. -/
inductive IsForest (t : List α) : ι → List (RoseTree α) → Prop where
  | intro {r : ι} {ts : List (RoseTree α)} (roots : ts.map RoseTree.label = L.childrenOf t r)
      (below : ∀ tree ∈ ts, IsForest t (L.id tree.label) tree.children) : IsForest t r ts

/-- Those trees, by searching the table for the children of every entry that has been found; `none`
    if they are not done at that depth. -/
def grow (t : List α) : Nat → ι → Option (List (RoseTree α))
  | 0, _ => none
  | n + 1, r => (L.childrenOf t r).mapM fun e => (grow t n (L.id e)).map (RoseTree.node e)

variable {L} {t : List α} {r : ι} {d : Nat} {e c c' : α}

theorem mem_childrenOf : e ∈ L.childrenOf t r ↔ e ∈ t ∧ L.parent e = r := by
  rw [childrenOf, List.mem_filter, decide_eq_true_iff]

theorem Reaches.of_child (hc : c ∈ L.childrenOf t r) : L.Reaches t r 1 c :=
  .child (mem_childrenOf.mp hc).1 (mem_childrenOf.mp hc).2

/-- A chain to an entry whose parent is `r` goes on to `r`. -/
theorem Reaches.lift (hc : c ∈ L.childrenOf t r) (h : L.Reaches t (L.id c) d e) :
    L.Reaches t r (d + 1) e := by
  obtain ⟨hmem, hlink⟩ := mem_childrenOf.mp hc
  induction h with
  | child mem link => exact .next mem link (.child hmem hlink)
  | next mem link _ ih => exact .next mem link ih

/-- Seen from the far end: a chain to `r` comes through one of the children of `r`. -/
theorem reaches_iff_top : L.Reaches t r d e ↔
    ∃ c ∈ L.childrenOf t r, (e = c ∧ d = 1) ∨ ∃ k, L.Reaches t (L.id c) k e ∧ d = k + 1 := by
  constructor
  · intro h
    induction h with
    | @child e mem link => exact ⟨e, mem_childrenOf.mpr ⟨mem, link⟩, .inl ⟨rfl, rfl⟩⟩
    | @next d e e' mem link _ ih =>
      obtain ⟨c, hc, ⟨rfl, rfl⟩ | ⟨k, hk, rfl⟩⟩ := ih
      · exact ⟨e', hc, .inr ⟨1, .child mem link, rfl⟩⟩
      · exact ⟨c, hc, .inr ⟨k + 1, .next mem link hk, rfl⟩⟩
  · rintro ⟨c, hc, ⟨rfl, rfl⟩ | ⟨k, hk, rfl⟩⟩
    · exact .of_child hc
    · exact hk.lift hc

/-- The trees below the siblings `cs`, one after the other. -/
theorem grow_siblings {n : Nat} {cs : List α}
    (h : ∀ c ∈ cs, ∃ ts, L.grow t n (L.id c) = some ts ∧ L.IsForest t (L.id c) ts) :
    ∃ ts, cs.mapM (fun e => (L.grow t n (L.id e)).map (RoseTree.node e)) = some ts ∧
      ts.map RoseTree.label = cs ∧
      ∀ tree ∈ ts, L.IsForest t (L.id tree.label) tree.children := by
  induction cs with
  | nil => exact ⟨[], rfl, rfl, fun _ h => nomatch h⟩
  | cons c cs ih =>
    obtain ⟨below, hgrow, hbelow⟩ := h c List.mem_cons_self
    obtain ⟨ts, hmap, hlabels, hforest⟩ := ih fun x hx => h x (List.mem_cons_of_mem c hx)
    refine ⟨.node c below :: ts, ?_, ?_, ?_⟩
    · simp [hgrow, hmap]
    · rw [List.map_cons, hlabels]
      rfl
    · intro tree htree
      rcases List.mem_cons.mp htree with rfl | htree
      · exact hbelow
      · exact hforest tree htree

/-- The search from `r`, when the entries on the way there are `path`.  An entry that reaches `r₀`
    is on no path to itself, since it would be deeper than it is; so the path is not longer than
    the table. -/
theorem grow_isForest_of_path {r₀ : ι} (hL : L.Distinct t) (hr₀ : L.RootFree t r₀) {n : Nat}
    (path : List α) (hnodup : path.Nodup)
    (hpath : ∀ x ∈ path, ∃ k ≤ path.length, L.Reaches t r₀ k x)
    (hnext : ∀ x ∈ L.childrenOf t r, L.Reaches t r₀ (path.length + 1) x)
    (hn : t.length < path.length + n) : ∃ ts, L.grow t n r = some ts ∧ L.IsForest t r ts := by
  induction n generalizing path r with
  | zero =>
    -- a path without repetitions that is longer than the table
    have hsub : path ⊆ t := fun x hx => (hpath x hx).elim fun k hk => hk.2.mem
    have hle := (hnodup.subperm hsub).length_le
    omega
  | succ n ih =>
    have hchild : ∀ c ∈ L.childrenOf t r, ∃ ts, L.grow t n (L.id c) = some ts ∧
        L.IsForest t (L.id c) ts := by
      intro c hc
      have hreach := hnext c hc
      -- on the path it would be less deep
      have hnew : c ∉ path := by
        intro hmem
        obtain ⟨k, hk, hold⟩ := hpath c hmem
        have heq := hreach.depth_unique hL hr₀ hold
        omega
      refine ih (c :: path) (List.nodup_cons.mpr ⟨hnew, hnodup⟩) ?_ ?_ (by rw [List.length_cons]; omega)
      · intro x hx
        rcases List.mem_cons.mp hx with rfl | hx
        · exact ⟨_, Nat.le_refl _, hreach⟩
        · obtain ⟨k, hk, hold⟩ := hpath x hx
          exact ⟨k, Nat.le_succ_of_le hk, hold⟩
      · intro x hx
        obtain ⟨mem, link⟩ := mem_childrenOf.mp hx
        exact .next mem link hreach
    obtain ⟨ts, hmap, hlabels, hforest⟩ := grow_siblings hchild
    exact ⟨ts, hmap, .intro hlabels hforest⟩

/-- **Growing ends**, one level deeper than the table has entries at the latest. -/
theorem grow_isForest (hL : L.Distinct t) (hr : L.RootFree t r) :
    ∃ ts, L.grow t (t.length + 1) r = some ts ∧ L.IsForest t r ts := by
  refine grow_isForest_of_path hL hr [] List.nodup_nil ?_ ?_ ?_
  · exact fun x hx => nomatch hx
  · exact fun x hx => .of_child hx
  · simp

/-! ## Preorder -/

theorem mem_preorderAll {ts : List (RoseTree α)} {x : Nat × α} :
    x ∈ preorderAll d ts ↔
      ∃ tree ∈ ts, x = (d, tree.label) ∨ x ∈ preorderAll (d + 1) tree.children := by
  induction ts with
  | nil => simp [preorderAll]
  | cons tree ts ih =>
    obtain ⟨a, below⟩ := tree
    rw [preorderAll, RoseTree.preorder, List.mem_append, List.mem_cons, ih, List.exists_mem_cons_iff]
    rfl

/-- The entries in the trees are those that reach `r`, each as deep as its chain is long. -/
theorem mem_preorder_iff {ts : List (RoseTree α)} (h : L.IsForest t r ts) {d₀ : Nat} :
    (d, e) ∈ preorderAll d₀ ts ↔ ∃ k, L.Reaches t r (k + 1) e ∧ d = d₀ + k := by
  induction h generalizing d₀ with
  | @intro r ts roots _ ih =>
    rw [mem_preorderAll]
    constructor
    · rintro ⟨tree, htree, heq | hbelow⟩
      · obtain ⟨rfl, rfl⟩ := Prod.mk.inj heq
        have hc : tree.label ∈ L.childrenOf t r := roots ▸ List.mem_map_of_mem htree
        exact ⟨0, .of_child hc, rfl⟩
      · have hc : tree.label ∈ L.childrenOf t r := roots ▸ List.mem_map_of_mem htree
        obtain ⟨k, hk, rfl⟩ := (ih tree htree).mp hbelow
        exact ⟨k + 1, hk.lift hc, by omega⟩
    · rintro ⟨k, hk, rfl⟩
      obtain ⟨c, hc, hcase⟩ := reaches_iff_top.mp hk
      rw [← roots] at hc
      obtain ⟨tree, htree, rfl⟩ := List.mem_map.mp hc
      refine ⟨tree, htree, ?_⟩
      rcases hcase with ⟨rfl, hk⟩ | ⟨k', hk', hkk⟩
      · obtain rfl : k = 0 := by omega
        exact .inl rfl
      · obtain ⟨k, rfl⟩ := Nat.exists_eq_succ_of_ne_zero (Nat.pos_iff_ne_zero.mp hk'.pos)
        obtain rfl : _ = k + 1 := Nat.succ.inj hkk
        exact .inr ((ih tree htree).mpr ⟨k, hk', by omega⟩)

/-- The children of `r` through which `e` reaches it are one. -/
theorem branch_unique (hL : L.Distinct t) (hr : L.RootFree t r) (hc : c ∈ L.childrenOf t r)
    (hc' : c' ∈ L.childrenOf t r) (h : e = c ∨ ∃ k, L.Reaches t (L.id c) k e)
    (h' : e = c' ∨ ∃ k, L.Reaches t (L.id c') k e) : c = c' := by
  rcases h with rfl | ⟨k, hk⟩
  · rcases h' with rfl | ⟨k', hk'⟩
    · rfl
    · -- a child of `r` is at depth 1 and not below another child
      have heq := (Reaches.of_child hc).depth_unique hL hr (hk'.lift hc')
      have hpos := hk'.pos
      omega
  · rcases h' with rfl | ⟨k', hk'⟩
    · have heq := (Reaches.of_child hc').depth_unique hL hr (hk.lift hc)
      have hpos := hk.pos
      omega
    · have heq := (hk.lift hc).depth_unique hL hr (hk'.lift hc')
      obtain rfl : k = k' := by omega
      exact hk.top_unique hL (mem_childrenOf.mp hc).1 (mem_childrenOf.mp hc').1 hk'

theorem preorderAll_labels (d : Nat) (ts : List (RoseTree α)) :
    (preorderAll d ts).map Prod.snd =
      ts.flatMap fun tree => tree.label :: (preorderAll (d + 1) tree.children).map Prod.snd := by
  induction ts with
  | nil => rfl
  | cons tree ts ih =>
    obtain ⟨a, below⟩ := tree
    rw [preorderAll, List.map_append, ih, List.flatMap_cons]
    rfl

/-- No entry is in the trees twice. -/
theorem nodup_preorder (hL : L.Distinct t) {ts : List (RoseTree α)} (h : L.IsForest t r ts)
    (hr : L.RootFree t r) (d₀ : Nat) : ((preorderAll d₀ ts).map Prod.snd).Nodup := by
  induction h generalizing d₀ with
  | @intro r ts roots below ih =>
    have hroot : ∀ tree ∈ ts, tree.label ∈ L.childrenOf t r := fun tree htree =>
      roots ▸ List.mem_map_of_mem htree
    -- what stands in the block of a tree, below its root
    have hblock : ∀ tree ∈ ts, ∀ e ∈ (preorderAll (d₀ + 1) tree.children).map Prod.snd,
        ∃ k, L.Reaches t (L.id tree.label) k e := by
      intro tree htree e he
      obtain ⟨⟨d, e⟩, hmem, rfl⟩ := List.mem_map.mp he
      obtain ⟨k, hk, -⟩ := (mem_preorder_iff (below tree htree)).mp hmem
      exact ⟨k + 1, hk⟩
    rw [preorderAll_labels, List.nodup_flatMap]
    constructor
    -- no block has an entry twice, and no two blocks share one
    · intro tree htree
      have hfree : L.RootFree t (L.id tree.label) :=
        hr.below hL (.of_child (hroot tree htree))
      refine List.nodup_cons.mpr ⟨fun hmem => ?_, ih tree htree hfree _⟩
      obtain ⟨k, hk⟩ := hblock tree htree _ hmem
      exact hfree k _ hk rfl
    · have hlabels : (ts.map RoseTree.label).Nodup := by
        rw [roots]
        exact (List.Nodup.of_map _ hL).filter _
      refine (List.pairwise_map.mp hlabels).imp_of_mem fun {a b} ha hb hne e hea heb => ?_
      exact hne (branch_unique hL hr (hroot a ha) (hroot b hb)
        ((List.mem_cons.mp hea).imp_right (hblock a ha e))
        ((List.mem_cons.mp heb).imp_right (hblock b hb e)))

end Links

end LinuxInterface
