/-
  inotify/inotify_dtree.c (tlpi-dist): directories are moved out of the trees, and whole runs.

  1. **Directories leave** — the cache still has what has left (`Leaving`), until the program knows
     that it is not a rename and has removed the watches, one after the other (`Zapping`).

  2. **Whole runs** — every moment of a run belongs to one operation (`Phase`).  Whenever the monitor
     has processed everything, the directories it lists are those that exist, and it never has to
     build its cache again: `monitor_mirrors`.
-/
import LinuxInterface.Dist.InotifySync

namespace LinuxInterface.InotifyDtree

open LinuxInterface

section

variable {roots : List CStr} {w w' : World} {d d' q q' : Dir} {n n' : FileName} {k k' : Nat}
  {gone : Option CStr}

/-! ## Directories leave the trees -/

/-- What was below `path` is outside; the cache has it still, as far as it is watched. -/
structure Leaving (roots : List CStr) (gone : Option CStr) (path : CStr) (w : World) : Prop where
  settled : Settled roots gone w
  mirror : ∀ s, s ∈ used w.mon.cache ↔ (∃ d ∈ w.dirs, w.slot d s) ∨ ∃ d ∈ w.outside, w.slot d s
  inside : ∀ d ∈ w.dirs, ¬ Within path d.path.str
  below : ∀ d ∈ w.outside, Within path d.path.str
  disjoint : ∀ d ∈ w.outside, ∀ d' ∈ w.dirs, d.ino ≠ d'.ino

/-- Where the monitor is does not matter to what has left. -/
theorem Leaving.goto {path : CStr} (h : Leaving roots gone path w) (pc : Pc) (queue : List Event) :
    Leaving roots gone path (w.goto pc queue) :=
  ⟨h.settled.goto pc queue, h.mirror, h.inside, h.below, h.disjoint⟩

/-- With everything processed, a subtree can be taken out of the roots: what is listed of it is just what
    is no longer there. -/
theorem Grow.moveOut {p : DirPath} (h : Grow roots w) (hcalm : w.Calm) (hp : p.root ∈ roots) (evs : List Event) :
    Leaving roots (if p.names = [] then some p.root else none) p.str (w.moveOut p evs) := by
  have hset := h.settled hcalm
  have hstays : ∀ d, d ∈ w.dirs.filter (fun d => ¬ p.Above d.path) ↔ d ∈ w.dirs ∧ ¬ p.Above d.path := by
    intro d
    rw [List.mem_filter, decide_eq_true_eq]
  have hleaves : ∀ d, d ∈ w.dirs.filter (fun d => p.Above d.path) ↔ d ∈ w.dirs ∧ p.Above d.path := by
    intro d
    rw [List.mem_filter, decide_eq_true_eq]
  refine ⟨?_, ?_, ?_, ?_, ?_⟩
  · refine
      { toShape := ⟨h.apart, ?_, ⟨h.watches.lt, h.watches.inj⟩, h.rootsNodup, h.rootsOld, h.never⟩
        full := fun d hd => hset.full d ((hstays d).mp hd).1, present := ?_, monitored := ?_ }
    · refine h.tree.filter fun d _ q _ n hpath hf => ?_
      refine decide_eq_true fun habove => of_decide_eq_true hf ?_
      rw [hpath]
      exact habove.trans (DirPath.above_child _ _)
    · intro r hr hgone
      obtain ⟨d, hd, hpath⟩ := hset.present r hr nofun
      refine ⟨d, (hstays d).mpr ⟨hd, ?_⟩, hpath⟩
      rintro ⟨hroot, hnames⟩
      rw [hpath] at hroot hnames
      rw [if_pos (List.prefix_nil.mp hnames), hroot] at hgone
      exact hgone rfl
    · intro d hd
      obtain ⟨hd, hnot⟩ := (hstays d).mp hd
      refine ⟨h.monitored d hd, ?_⟩
      split
      · rename_i hnil
        intro heq
        refine hnot ⟨(Option.some.inj heq).symm, ?_⟩
        rw [hnil]
        exact List.nil_prefix
      · nofun
  · intro s
    refine (h.mirror s).trans ⟨?_, ?_⟩
    · rintro ⟨d, hd, hs⟩
      by_cases habove : p.Above d.path
      · exact Or.inr ⟨d, (hleaves d).mpr ⟨hd, habove⟩, hs⟩
      · exact Or.inl ⟨d, (hstays d).mpr ⟨hd, habove⟩, hs⟩
    · rintro (⟨d, hd, hs⟩ | ⟨d, hd, hs⟩)
      · exact ⟨d, ((hstays d).mp hd).1, hs⟩
      · exact ⟨d, ((hleaves d).mp hd).1, hs⟩
  · intro d hd hwithin
    obtain ⟨hd, hnot⟩ := (hstays d).mp hd
    exact hnot ((within_str h.apart hp (h.tree.root d hd)).mp hwithin)
  · intro d hd
    obtain ⟨hd, habove⟩ := (hleaves d).mp hd
    exact (within_str h.apart hp (h.tree.root d hd)).mpr habove
  · intro d hd d' hd' heq
    obtain ⟨hd, habove⟩ := (hleaves d).mp hd
    obtain ⟨hd', hnot⟩ := (hstays d').mp hd'
    exact hnot (h.tree.ino_inj hd hd' heq ▸ habove)

/-- The watches of what has left are being removed, those in the slots before this one already. -/
structure Zapping (roots : List CStr) (path : CStr) (w : World) : Prop where
  leaving : Leaving roots none path w
  events : ∀ ev ∈ w.unread, ∃ k, ev = ignored k
  pc : ∃ slot rest numRead, w.mon.pc = .zap path slot (.event rest numRead) ∧
    ∀ i s, i < slot → w.mon.cache[i]? = some s → 0 ≤ s.wd → ¬ Within path s.path

/-- **`zapSubtree`** comes to the next slot, or has caught up. -/
theorem Leaving.zapSubtree {path : CStr} {rest : List Event} {numRead : Int} {j : Nat}
    (h : Leaving roots none path w) (hrest : Rest rest numRead) (hev : ∀ ev ∈ rest ++ w.queue, ∃ k, ev = ignored k)
    (hbefore : ∀ i s, i < j → w.mon.cache[i]? = some s → 0 ≤ s.wd → ¬ Within path s.path) :
    Grow roots { w with mon := w.mon.zapSubtree path j (.event rest numRead) } ∨
      Zapping roots path { w with mon := w.mon.zapSubtree path j (.event rest numRead) } := by
  unfold Monitor.zapSubtree
  cases hnext : nextToZap w.mon.cache path j with
  | some slot =>
    refine Or.inr ⟨h.goto _ w.queue, hev, slot, rest, numRead, rfl, ?_⟩
    intro i s hi hs hwd
    by_cases hij : i < j
    · exact hbefore i s hij hs hwd
    · exact nextToZap_before hnext i s (Nat.le_of_not_lt hij) hi hs hwd
  | none =>
    refine Or.inl (h.settled.toLoop ?_ hrest hev)
    intro s
    rw [h.mirror s]
    constructor
    · rintro (hs | ⟨d, hd, k, hk, rfl⟩)
      · exact hs
      · -- nothing below the path is left in the cache
        have hmem : (⟨k, d.path.str⟩ : Watch) ∈ used w.mon.cache := (h.mirror _).mpr (Or.inr ⟨d, hd, k, hk, rfl⟩)
        obtain ⟨hmem, hwd⟩ := mem_used.mp hmem
        obtain ⟨i, hi⟩ := List.mem_iff_getElem?.mp hmem
        by_cases hij : i < j
        · exact absurd (h.below d hd) (hbefore i _ hij hi hwd)
        · exact absurd (h.below d hd) (nextToZap_eq_none hnext i _ (Nat.le_of_not_lt hij) hi hwd)
    · exact Or.inl

/-- **A watch is removed.** -/
theorem Zapping.rmWatch {path : CStr} (h : Zapping roots path w) (hsound : Sound w.mon)
    (hstep : w.step .rmWatch = some w') : Grow roots w' ∨ Zapping roots path w' := by
  obtain ⟨slot, rest, numRead, hpc, hbefore⟩ := h.pc
  have hpcs := hsound.pc
  unfold PcSound at hpcs
  rw [hpc] at hpcs
  obtain ⟨⟨s, hget, hwd, hwithin⟩, hrest⟩ := hpcs
  unfold World.step at hstep
  dsimp only at hstep
  rw [hpc] at hstep
  dsimp only at hstep
  rw [hget] at hstep
  -- the slot is that of a directory outside
  have hslot : ∃ d ∈ w.outside, w.slot d s := by
    have hmem := (h.leaving.mirror s).mp (mem_used.mpr ⟨List.mem_of_getElem? hget, hwd⟩)
    rcases hmem with ⟨d, hd, k, hk, rfl⟩ | hmem
    · exact absurd hwithin (h.leaving.inside d hd)
    · exact hmem
  obtain ⟨d, hd, k, hk, rfl⟩ := hslot
  have hfind : ∃ d', (w.dirs ++ w.outside).find? (fun d => (w.watch d.ino).map Int.ofNat = some (k : Int)) = some d' ∧
      d'.ino = d.ino := by
    cases hfind : (w.dirs ++ w.outside).find? fun d => (w.watch d.ino).map Int.ofNat = some (k : Int) with
    | none =>
      have hnot := List.find?_eq_none.mp hfind d (List.mem_append_right _ hd)
      refine absurd (decide_eq_true ?_) hnot
      rw [hk]
      rfl
    | some d' =>
      have hfound := List.find?_some hfind
      have heq : (w.watch d'.ino).map Int.ofNat = some (k : Int) := of_decide_eq_true hfound
      obtain ⟨k', hk', hkk⟩ := Option.map_eq_some_iff.mp heq
      obtain rfl : k' = k := Int.ofNat.inj hkk
      exact ⟨d', rfl, h.leaving.settled.watches.inj _ _ _ hk' hk⟩
  obtain ⟨d', hfind, hino⟩ := hfind
  have hstep' : w.rmWatch k = some w' := hstep
  unfold World.rmWatch at hstep'
  rw [hfind] at hstep'
  obtain ⟨w₁, hw₁, rfl⟩ := Option.map_eq_some_iff.mp hstep'
  obtain ⟨m', hm', rfl⟩ := Option.map_eq_some_iff.mp hw₁
  obtain ⟨path', slot', ret', hpc', rfl⟩ := step_removed hm'
  obtain ⟨rfl, rfl, rfl⟩ := Pc.zap.inj (hpc.symm.trans hpc')
  have hother : ∀ i j, Function.update w.watch d'.ino none i = some j ↔ w.watch i = some j ∧ j ≠ k := by
    intro i j
    rw [hino]
    by_cases hid : i = d.ino
    · subst hid
      rw [Function.update_self]
      constructor
      · nofun
      · rintro ⟨hj, hne⟩
        exact absurd (Option.some.inj (hj.symm.trans hk)) hne
    · rw [Function.update_of_ne hid]
      constructor
      · intro hj
        refine ⟨hj, ?_⟩
        rintro rfl
        exact hid (h.leaving.settled.watches.inj _ _ _ hj hk)
      · exact fun hj => hj.1
  have hset := h.leaving.settled
  have hleaving : Leaving roots none path { w with
      mon := { w.mon with cache := markCacheSlotEmpty w.mon.cache slot }
      watch := Function.update w.watch d'.ino none
      queue := w.queue ++ w.report d'.ino ignored } := by
    refine ⟨?_, ?_, h.leaving.inside, h.leaving.below, h.leaving.disjoint⟩
    · refine
        { toShape := ⟨hset.apart, hset.tree, ⟨?_, ?_⟩, hset.rootsNodup, hset.rootsOld, hset.never⟩
          full := ?_, present := hset.present, monitored := hset.monitored }
      · exact fun i j hi => hset.watches.lt i j ((hother i j).mp hi).1
      · exact fun i i' j hi hi' => hset.watches.inj i i' j ((hother i j).mp hi).1 ((hother i' j).mp hi').1
      · intro e he
        show Function.update w.watch d'.ino none e.ino ≠ none
        rw [hino, Function.update_of_ne fun heq => h.leaving.disjoint d hd e he heq.symm]
        exact hset.full e he
    · intro s
      show s ∈ used (markCacheSlotEmpty w.mon.cache slot) ↔ _
      rw [mem_used_mark hsound.cache hget hwd, h.leaving.mirror s]
      have hiff : ∀ e : Dir, (∃ j : Nat, Function.update w.watch d'.ino none e.ino = some j ∧ s = ⟨j, e.path.str⟩) ↔
          w.slot e s ∧ s.wd ≠ k := by
        intro e
        constructor
        · rintro ⟨j, hj, rfl⟩
          obtain ⟨hj, hne⟩ := (hother _ j).mp hj
          exact ⟨⟨j, hj, rfl⟩, fun heq => hne (Int.ofNat.inj heq)⟩
        · rintro ⟨⟨j, hj, rfl⟩, hne⟩
          exact ⟨j, (hother _ j).mpr ⟨hj, fun heq => hne (congrArg Int.ofNat heq)⟩, rfl⟩
      constructor
      · rintro ⟨⟨e, he, hs⟩ | ⟨e, he, hs⟩, hne⟩
        · exact Or.inl ⟨e, he, (hiff e).mpr ⟨hs, hne⟩⟩
        · exact Or.inr ⟨e, he, (hiff e).mpr ⟨hs, hne⟩⟩
      · rintro (⟨e, he, hs⟩ | ⟨e, he, hs⟩)
        · obtain ⟨hs, hne⟩ := (hiff e).mp hs
          exact ⟨Or.inl ⟨e, he, hs⟩, hne⟩
        · obtain ⟨hs, hne⟩ := (hiff e).mp hs
          exact ⟨Or.inr ⟨e, he, hs⟩, hne⟩
  refine hleaving.zapSubtree hrest ?_ ?_
  · intro ev hev
    rw [← List.append_assoc] at hev
    rcases List.mem_append.mp hev with hev | hev
    · refine h.events ev ?_
      unfold World.unread
      rw [hpc]
      exact hev
    · obtain ⟨j, -, rfl⟩ := List.mem_map.mp hev
      exact ⟨j, rfl⟩
  · intro i s hi hs hwd'
    have hs' : (w.mon.cache.set slot unused)[i]? = some s := hs
    by_cases his : i = slot
    · subst his
      obtain ⟨hlen, -⟩ := List.getElem?_eq_some_iff.mp hget
      rw [List.getElem?_set_self hlen] at hs'
      rw [← Option.some.inj hs'] at hwd'
      exact absurd hwd' (by decide)
    · rw [List.getElem?_set_ne (Ne.symm his)] at hs'
      exact hbefore i s (by omega) hs' hwd'

/-- The directory `n` in `q` has been moved out. -/
structure MovedOut (roots : List CStr) (q : Dir) (n : FileName) (k cookie : Nat) (w : World) : Prop where
  leaving : Leaving roots none (q.path.child n).str w
  parent : q ∈ w.dirs
  short : (q.path.child n).str.strlen < PATH_MAX
  watch : w.watch q.ino = some k
  events : w.unread = [movedFrom cookie n k]
  stage : Moving w

/-- A directory below a root is moved to where nobody watches. -/
theorem Grow.detach (h : Grow roots w) (hG : Guard roots w (.detach q n)) :
    ∃ k, MovedOut roots q n k w.cookie (w.moveOut (q.path.child n) (w.report q.ino (movedFrom w.cookie n))) := by
  obtain ⟨hcalm, hq, hchild⟩ := hG
  obtain ⟨k, hk⟩ := Option.ne_none_iff_exists'.mp ((h.settled hcalm).full q hq)
  obtain ⟨d, hd, hpath⟩ := List.mem_map.mp hchild
  have hnames : (q.path.child n).names ≠ [] := List.append_ne_nil_of_right_ne_nil _ nofun
  have hleaving := h.moveOut (p := q.path.child n) hcalm (h.tree.root q hq) (w.report q.ino (movedFrom w.cookie n))
  rw [if_neg hnames] at hleaving
  refine ⟨k, hleaving, ?_, ?_, hk, ?_, ?_⟩
  · refine List.mem_filter.mpr ⟨hq, decide_eq_true ?_⟩
    rintro ⟨-, hprefix⟩
    have hlen : (q.path.names ++ [n]).length ≤ q.path.names.length := hprefix.length_le
    rw [List.length_append, List.length_singleton] at hlen
    omega
  · rw [← hpath]
    exact h.tree.short d hd
  · show w.mon.pc.buffer ++ (w.queue ++ w.report q.ino _) = _
    unfold World.report
    rw [hk, hcalm.1, hcalm.2]
    rfl
  · unfold Moving
    rw [show (w.moveOut (q.path.child n) (w.report q.ino (movedFrom w.cookie n))).mon.pc = .select from hcalm.1]
    trivial

/-- Reading on, with the events still unread in the same order. -/
theorem MovedOut.goto {cookie : Nat} (h : MovedOut roots q n k cookie w) (pc : Pc) (queue : List Event)
    (hunread : pc.buffer ++ queue = w.unread) (hstage : Moving (w.goto pc queue)) :
    MovedOut roots q n k cookie (w.goto pc queue) :=
  ⟨h.leaving.goto pc queue, h.parent, h.short, h.watch, hunread.trans h.events, hstage⟩

/-- **The move is processed**: the program reads once more, or begins to remove watches. -/
theorem MovedOut.process {cookie : Nat} (h : MovedOut roots q n k cookie w) (hsound : Sound w.mon)
    (hstep : w.step .process = some w') :
    MovedOut roots q n k cookie w' ∨ Grow roots w' ∨ Zapping roots (q.path.child n).str w' := by
  obtain ⟨ev, rest, numRead, firstTry, hpc, hbuf, rfl⟩ := process_cases hsound hstep
  have hunread : ev :: (rest ++ w.queue) = [movedFrom cookie n k] := by
    rw [← h.events]
    unfold World.unread
    rw [hpc]
    rfl
  obtain ⟨rfl, hnil⟩ := List.cons.inj hunread
  obtain ⟨rfl, hqueue⟩ := List.append_eq_nil_iff.mp hnil
  have hslot : (⟨k, q.path.str⟩ : Watch) ∈ used w.mon.cache :=
    (h.leaving.mirror _).mpr (Or.inl ⟨q, h.parent, k, h.watch, rfl⟩)
  rw [process_movedFrom hsound.cache hslot]
  cases firstTry with
  | true =>
    rw [movedFrom_more hbuf]
    refine Or.inl (h.goto _ w.queue ?_ trivial)
    rw [h.events, hqueue]
    rfl
  | false =>
    have hpath : snprintf (PATH_MAX + NAME_MAX) (q.path.str.slash (movedFrom cookie n k).name) =
        (q.path.child n).str := by
      show snprintf _ (q.path.str.slash n.str) = _
      rw [← DirPath.str_child]
      exact snprintf_eq (Nat.lt_of_lt_of_le h.short (Nat.le_add_right ..))
    rw [movedFrom_out hbuf, hpath]
    refine Or.inr (h.leaving.zapSubtree hbuf.tail ?_ ?_)
    · rw [hqueue]
      exact fun _ hev => nomatch hev
    · exact fun i _ hi => absurd hi (Nat.not_lt_zero i)

/-- **Nothing comes after it**: the read is interrupted. -/
theorem MovedOut.timeout {cookie : Nat} (h : MovedOut roots q n k cookie w) (hsound : Sound w.mon)
    (hstep : w.step .timeout = some w') : MovedOut roots q n k cookie w' := by
  obtain ⟨buf, numRead, hpc, hqueue, rfl⟩ := timeout_cases hstep
  have hpcs := hsound.pc
  unfold PcSound at hpcs
  rw [hpc] at hpcs
  obtain ⟨hnum, ev, rfl, -⟩ := hpcs
  have hpos : 0 < numRead + -1 := by
    have hsize : 16 ≤ ev.size := Nat.le_add_right 16 ev.len
    rw [hnum, sizes_cons]
    omega
  have hloop : w.mon.toLoop [ev] (numRead + -1) false = { w.mon with pc := .loop [ev] (numRead + -1) false } := by
    unfold Monitor.toLoop
    rw [if_pos hpos]
  rw [hloop]
  refine h.goto _ w.queue ?_ hqueue
  unfold World.unread
  rw [hpc]
  rfl

/-- The root `r` has been moved. -/
structure RootMoved (roots : List CStr) (r : CStr) (k : Nat) (isDir : Bool) (w : World) : Prop where
  leaving : Leaving roots (some r) r w
  listed : some r ∈ w.mon.rootDirPaths
  slot : (⟨k, r⟩ : Watch) ∈ used w.mon.cache
  events : w.unread = [selfEvent IN_MOVE_SELF isDir k]
  pc : w.mon.pc.Reads

/-- A root itself is moved. -/
theorem Grow.moveRoot {isDir : Bool} (h : Grow roots w) (hG : Guard roots w (.moveRoot d isDir)) :
    ∃ r k, RootMoved roots r k isDir (w.moveOut d.path (w.report d.ino (selfEvent IN_MOVE_SELF isDir))) := by
  obtain ⟨hcalm, hd, hnames⟩ := hG
  have hset := h.settled hcalm
  obtain ⟨k, hk⟩ := Option.ne_none_iff_exists'.mp (hset.full d hd)
  have hstr : d.path.str = d.path.root := by
    rw [← DirPath.str_root d.path.root, ← hnames]
  have hleaving := h.moveOut (p := d.path) hcalm (h.tree.root d hd) (w.report d.ino (selfEvent IN_MOVE_SELF isDir))
  rw [if_pos hnames, hstr] at hleaving
  refine ⟨d.path.root, k, hleaving, h.monitored d hd, ?_, ?_, ?_⟩
  · refine (h.mirror _).mpr ⟨d, hd, k, hk, ?_⟩
    rw [hstr]
  · show w.mon.pc.buffer ++ (w.queue ++ w.report d.ino _) = _
    unfold World.report
    rw [hk, hcalm.1, hcalm.2]
    rfl
  · show w.mon.pc.Reads
    rw [hcalm.1]
    trivial

/-- Reading on, as for a directory below a root. -/
theorem RootMoved.goto {r : CStr} {isDir : Bool} (h : RootMoved roots r k isDir w) (pc : Pc) (queue : List Event)
    (hunread : pc.buffer ++ queue = w.unread) (hpc : pc.Reads) : RootMoved roots r k isDir (w.goto pc queue) :=
  ⟨h.leaving.goto pc queue, h.listed, h.slot, hunread.trans h.events, hpc⟩

/-- **The move of a root is processed**: it is crossed out, and its watches are removed. -/
theorem RootMoved.process {r : CStr} {isDir : Bool} (h : RootMoved roots r k isDir w) (hsound : Sound w.mon)
    (hstep : w.step .process = some w') : Ended w' ∨ Grow roots w' ∨ Zapping roots r w' := by
  obtain ⟨ev, rest, numRead, firstTry, hpc, hbuf, rfl⟩ := process_cases hsound hstep
  have hunread : ev :: (rest ++ w.queue) = [selfEvent IN_MOVE_SELF isDir k] := by
    rw [← h.events]
    unfold World.unread
    rw [hpc]
    rfl
  obtain ⟨rfl, hnil⟩ := List.cons.inj hunread
  obtain ⟨rfl, hqueue⟩ := List.append_eq_nil_iff.mp hnil
  rw [process_moveSelf hsound.cache h.slot (isRootDirPath_iff.mpr h.listed)]
  have hset := h.leaving.settled
  obtain ⟨roots', hmem, hnodup, ⟨hnone, heq⟩ | heq⟩ := zapRootDirPath_cases hsound.ignored hset.rootsNodup h.listed
    fun m => m.zapSubtree r 0 (.event [] (numRead - (selfEvent IN_MOVE_SELF isDir k).size))
  · rw [heq]
    exact Or.inl ⟨rfl, hset.dirs_eq_nil hmem hnone, hset.never⟩
  · rw [heq]
    have hleaving : Leaving roots none r { w with mon := ⟨w.mon.cache, roots', w.mon.ignoreRootDirs + 1,
        w.mon.reinitCnt, w.mon.pc⟩ } := by
      refine ⟨?_, h.leaving.mirror, h.leaving.inside, h.leaving.below, h.leaving.disjoint⟩
      refine
        { toShape := ⟨hset.apart, hset.tree, ⟨hset.watches.lt, hset.watches.inj⟩, hnodup, ?_, hset.never⟩
          full := hset.full, present := ?_, monitored := ?_ }
      · exact fun x hx => hset.rootsOld x ((hmem x).mp hx).1
      · intro x hx _
        obtain ⟨hx, hne⟩ := (hmem x).mp hx
        exact hset.present x hx fun heq => hne (Option.some.inj heq)
      · intro d hd
        obtain ⟨hd, hne⟩ := hset.monitored d hd
        exact ⟨(hmem _).mpr ⟨hd, fun heq => hne (congrArg some heq)⟩, nofun⟩
    refine Or.inr (hleaving.zapSubtree hbuf.tail ?_ ?_)
    · show ∀ ev ∈ [] ++ w.queue, _
      rw [hqueue]
      exact fun _ hev => nomatch hev
    · exact fun i _ hi => absurd hi (Nat.not_lt_zero i)

/-! ## What the kernel reports -/

/-- The program is sound, and the events it will read are such as inotify reports. -/
structure Wellformed (w : World) : Prop where
  sound : Sound w.mon
  shaped : ∀ ev ∈ w.queue, Shaped ev

theorem shaped_movedFrom (cookie : Nat) (n : FileName) (k : Nat) : Shaped (movedFrom cookie n k) :=
  shaped_of_watch rfl (Event.has_of_mask (show _ = IN_MOVED_FROM ||| IN_ISDIR from rfl) (by decide))

theorem shaped_deleteSelf (isDir : Bool) (k : Nat) : Shaped (selfEvent IN_DELETE_SELF isDir k) :=
  shaped_of_watch rfl (Event.has_of_mask (selfEvent_mask ..) (by cases isDir <;> decide))

theorem shaped_moveSelf (isDir : Bool) (k : Nat) : Shaped (selfEvent IN_MOVE_SELF isDir k) :=
  shaped_of_watch rfl (Event.has_of_mask (selfEvent_mask ..) (by cases isDir <;> decide))

/-- Whether there is a watch to report to or not. -/
theorem shaped_report {ev : Nat → Event} (i : Nat) (hev : ∀ k, Shaped (ev k)) : ∀ e ∈ w.report i ev, Shaped e := by
  intro e he
  obtain ⟨k, -, rfl⟩ := List.mem_map.mp he
  exact hev k

theorem shaped_append {evs evs' : List Event} (h : ∀ ev ∈ evs, Shaped ev) (h' : ∀ ev ∈ evs', Shaped ev) :
    ∀ ev ∈ evs ++ evs', Shaped ev := by
  intro ev hev
  rcases List.mem_append.mp hev with hev | hev
  · exact h ev hev
  · exact h' ev hev

/-- A directory that a scan will find changes nothing that is known. -/
theorem Sound.sees {m : Monitor} (h : Sound m) (path : CStr) (n : FileName) : Sound (m.sees path n) := by
  unfold Monitor.sees
  split
  · rename_i stack ret hpc
    refine ⟨h.cache, h.ignored, ?_, ?_⟩
    · exact Or.inr (h.root.resolve_left fun hex => by rw [hpc] at hex; nomatch hex)
    · have hpcs := h.pc
      unfold PcSound at hpcs
      rw [hpc] at hpcs
      exact hpcs
  · exact h

/-- What the monitor does itself, or its alarm. -/
def Act.Own : Act → Prop
  | .attach .. | .detach .. | .rename .. | .rmdir .. | .moveRoot .. => False
  | _ => True

instance (a : Act) : Decidable a.Own :=
  match a with
  | .attach .. | .detach .. | .rename .. | .rmdir .. | .moveRoot .. => isFalse id
  | .init | .process | .read _ | .timeout | .alarm | .addWatch | .entry _ | .endOfDir | .rmWatch => isTrue trivial

/-- What a call of the monitor changes: nothing of the directories, and the queue gets at most news
    about watches that are gone. -/
structure Called (w w' : World) : Prop where
  answer : ∃ a, Kernel w.mon a ∧ w.mon.step a = some w'.mon
  dirs : w'.dirs = w.dirs
  queue : ∀ ev ∈ w'.queue, ev ∈ w.queue ∨ ∃ k, ev = ignored k

/-- A call of the monitor changes its own state and that of the kernel for it, never the directories. -/
theorem Called.answered {a : Answer} (hstep : w.answered a = some w') (ha : Kernel w.mon a) : Called w w' := by
  obtain ⟨m', hm', rfl⟩ := Option.map_eq_some_iff.mp hstep
  exact ⟨⟨a, ha, hm'⟩, rfl, fun _ hev => Or.inl hev⟩

/-- The same, where the call also changed the queue or a watch. -/
theorem Called.updated {w₁ : World} (h : Called w w₁) (hmon : w'.mon = w₁.mon) (hdirs : w'.dirs = w₁.dirs)
    (hqueue : ∀ ev ∈ w'.queue, ev ∈ w.queue ∨ ∃ k, ev = ignored k) : Called w w' := by
  obtain ⟨a, ha, hm⟩ := h.answer
  exact ⟨⟨a, ha, hmon ▸ hm⟩, hdirs.trans h.dirs, hqueue⟩

/-- **A step of the monitor** is a call. -/
theorem called_of_own {a : Act} (hshaped : ∀ ev ∈ w.queue, Shaped ev) (hstep : w.step a = some w') (hown : a.Own) :
    Called w w' := by
  unfold World.step at hstep
  cases a with
  | attach q n new moved seen => exact hown.elim
  | detach q n => exact hown.elim
  | rename q n q' n' => exact hown.elim
  | rmdir d isDir => exact hown.elim
  | moveRoot d isDir => exact hown.elim
  | init =>
    obtain ⟨w₁, hw₁, rfl⟩ := Option.map_eq_some_iff.mp hstep
    exact (Called.answered hw₁ trivial).updated rfl rfl fun _ hev => nomatch hev
  | process => exact .answered hstep trivial
  | read j =>
    dsimp only at hstep
    split at hstep
    · obtain ⟨w₁, hw₁, rfl⟩ := Option.map_eq_some_iff.mp hstep
      have hcalled : Called w w₁ := .answered hw₁ fun ev hev => hshaped ev (List.mem_of_mem_take hev)
      exact hcalled.updated rfl rfl fun ev hev => Or.inl (List.mem_of_mem_drop hev)
    · cases hstep
  | timeout =>
    dsimp only at hstep
    split at hstep
    · split at hstep
      · exact .answered hstep trivial
      · cases hstep
    · cases hstep
  | alarm => exact .answered hstep trivial
  | addWatch =>
    dsimp only at hstep
    split at hstep
    · unfold World.addWatch at hstep
      split at hstep
      · exact .answered hstep trivial
      · split at hstep
        · exact .answered hstep (Int.natCast_nonneg _)
        · obtain ⟨w₁, hw₁, rfl⟩ := Option.map_eq_some_iff.mp hstep
          have hcalled : Called w w₁ := .answered hw₁ (Int.natCast_nonneg _)
          exact hcalled.updated rfl rfl hcalled.queue
    · cases hstep
  | entry n =>
    dsimp only at hstep
    split at hstep
    · split at hstep
      · exact .answered hstep trivial
      · cases hstep
    · cases hstep
  | endOfDir =>
    dsimp only at hstep
    split at hstep
    · exact .answered hstep trivial
    · cases hstep
  | rmWatch =>
    dsimp only at hstep
    split at hstep
    · obtain ⟨s, -, hrm⟩ := Option.bind_eq_some_iff.mp hstep
      unfold World.rmWatch at hrm
      split at hrm
      · exact .answered hrm trivial
      · obtain ⟨w₁, hw₁, rfl⟩ := Option.map_eq_some_iff.mp hrm
        refine (Called.answered hw₁ trivial).updated rfl rfl fun ev hev => ?_
        rcases List.mem_append.mp hev with hev | hev
        · exact Or.inl hev
        · obtain ⟨k, -, rfl⟩ := List.mem_map.mp hev
          exact Or.inr ⟨k, rfl⟩
    · cases hstep

/-- A call of the monitor keeps it sound, and queues nothing that inotify would not report. -/
theorem Wellformed.called (h : Wellformed w) (hcalled : Called w w') : Wellformed w' where
  sound := by
    obtain ⟨a, ha, hm⟩ := hcalled.answer
    exact h.sound.step ha hm
  shaped := by
    intro ev hev
    rcases hcalled.queue ev hev with hev | ⟨k, rfl⟩
    · exact h.shaped ev hev
    · exact shaped_ignored k

/-- **So does every step**: what the directories do to the queue as well. -/
theorem Wellformed.step {a : Act} (h : Wellformed w) (hstep : w.step a = some w') : Wellformed w' := by
  cases a with
  | attach q n new moved seen =>
    cases hstep
    refine ⟨?_, shaped_append h.shaped (shaped_report _ (shaped_appeared moved w.cookie n))⟩
    cases seen
    · exact h.sound
    · exact h.sound.sees q.path.str n
  | detach q n =>
    cases hstep
    exact ⟨h.sound, shaped_append h.shaped (shaped_report _ (shaped_movedFrom w.cookie n))⟩
  | rename q n q' n' =>
    cases hstep
    refine ⟨h.sound, shaped_append ?_ (shaped_report _ (shaped_appeared true w.cookie n'))⟩
    exact shaped_append h.shaped (shaped_report _ (shaped_movedFrom w.cookie n))
  | rmdir d isDir =>
    cases hstep
    refine ⟨h.sound, shaped_append ?_ (shaped_report _ shaped_ignored)⟩
    exact shaped_append h.shaped (shaped_report _ (shaped_deleteSelf isDir))
  | moveRoot d isDir =>
    cases hstep
    exact ⟨h.sound, shaped_append h.shaped (shaped_report _ (shaped_moveSelf isDir))⟩
  | _ => exact h.called (called_of_own h.shaped hstep True.intro)

/-! ## Whole runs -/

/-- The call of the monitor that an act is. -/
def Act.Fits : Act → Pc → Prop
  | .init, .init | .process, .loop _ _ _ | .read _, .select | .read _, .more _ _ _ | .timeout, .more _ _ true
  | .alarm, .more _ _ true
  | .addWatch, .walk _ _ | .entry _, .walk _ _ | .endOfDir, .walk _ _ | .rmWatch, .zap _ _ _ => True
  | _, _ => False

/-- **A step of the monitor** is its next call. -/
theorem fits_of_own {a : Act} (hown : a.Own) (hstep : w.step a = some w') : a.Fits w.mon.pc := by
  cases a with
  | attach q n new moved seen => exact hown.elim
  | detach q n => exact hown.elim
  | rename q n q' n' => exact hown.elim
  | rmdir d isDir => exact hown.elim
  | moveRoot d isDir => exact hown.elim
  | init =>
    obtain ⟨w₁, hw₁, rfl⟩ := Option.map_eq_some_iff.mp hstep
    obtain ⟨m', hm', rfl⟩ := Option.map_eq_some_iff.mp hw₁
    rw [(step_initialized hm').1]
    trivial
  | process =>
    obtain ⟨m', hm', rfl⟩ := Option.map_eq_some_iff.mp hstep
    obtain ⟨buf, numRead, firstTry, hpc, -⟩ := step_process hm'
    rw [hpc]
    trivial
  | read j =>
    unfold World.step at hstep
    dsimp only at hstep
    split at hstep
    · obtain ⟨w₁, hw₁, rfl⟩ := Option.map_eq_some_iff.mp hstep
      obtain ⟨m', hm', rfl⟩ := Option.map_eq_some_iff.mp hw₁
      obtain ⟨-, ⟨hpc, -⟩ | ⟨buf, numRead, armed, hpc, -⟩⟩ := step_read hm'
      · rw [hpc]
        trivial
      · rw [hpc]
        trivial
    · cases hstep
  | timeout =>
    obtain ⟨buf, numRead, hpc, -⟩ := timeout_cases hstep
    rw [hpc]
    trivial
  | alarm =>
    obtain ⟨buf, numRead, hpc, -⟩ := alarm_cases hstep
    rw [hpc]
    trivial
  | addWatch =>
    unfold World.step at hstep
    dsimp only at hstep
    split at hstep
    · rename_i hpc
      rw [hpc]
      trivial
    · cases hstep
  | entry n =>
    unfold World.step at hstep
    dsimp only at hstep
    split at hstep
    · rename_i hpc
      rw [hpc]
      trivial
    · cases hstep
  | endOfDir =>
    unfold World.step at hstep
    dsimp only at hstep
    split at hstep
    · rename_i hpc
      rw [hpc]
      trivial
    · cases hstep
  | rmWatch =>
    unfold World.step at hstep
    dsimp only at hstep
    split at hstep
    · rename_i hpc
      rw [hpc]
      trivial
    · cases hstep

/-- Something is underway before which others wait. -/
def World.Busy (w : World) : Prop := ¬ w.Calm ∧ ¬ w.Growing

/-- An event that is neither about something new nor an `IN_IGNORED` is one to wait for. -/
theorem busy_of_event (ev : Event) (hmem : ev ∈ w.unread) (hnew : ev.has (IN_CREATE ||| IN_MOVED_TO) = false)
    (hign : ev.has IN_IGNORED = false) : w.Busy := by
  constructor
  · intro hcalm
    rw [hcalm.unread] at hmem
    nomatch hmem
  · rintro ⟨-, hall⟩
    rcases hall ev hmem with h | h
    · rw [hnew] at h
      nomatch h
    · unfold Event.has at hign
      rw [h] at hign
      exact absurd hign (by decide)

/-- While such an event is unread the tree stands still: only the monitor goes on. -/
theorem own_of_busy {a : Act} (hbusy : w.Busy) (hG : Guard roots w a) : a.Own := by
  cases a with
  | attach q n new moved seen => exact absurd hG.1 hbusy.2
  | detach q n => exact absurd hG.1 hbusy.1
  | rename q n q' n' => exact absurd hG.1 hbusy.1
  | rmdir d isDir => exact absurd hG.1 hbusy.1
  | moveRoot d isDir => exact absurd hG.1 hbusy.1
  | _ => exact True.intro

/-- **A step is a call of the monitor**, when something is underway. -/
theorem fits_of_busy {a : Act} (hbusy : w.Busy) (hG : Guard roots w a) (hstep : w.step a = some w') :
    a.Fits w.mon.pc :=
  fits_of_own (own_of_busy hbusy hG) hstep

/-- At the loop, or in `select`, the monitor processes an event or reads. -/
theorem Act.Fits.reads {a : Act} {pc : Pc} (h : a.Fits pc) (hpc : pc.Reads) : a = .process ∨ ∃ j, a = .read j := by
  cases a <;> cases pc <;> simp_all [Act.Fits, Pc.Reads]

/-- Between the first and the second try of an `IN_MOVED_FROM` the alarm may come as well. -/
theorem Act.Fits.moving {a : Act} (h : a.Fits w.mon.pc) (hstage : Moving w) :
    a = .process ∨ (∃ j, a = .read j) ∨ a = .timeout ∨ a = .alarm := by
  unfold Moving at hstage
  generalize w.mon.pc = pc at h hstage
  cases a <;> cases pc <;> simp_all [Act.Fits]

/-- Inside `zapSubtree` there is one call. -/
theorem Act.Fits.zap {a : Act} {path : CStr} {slot : Nat} {ret : AfterZap} (h : a.Fits (.zap path slot ret)) :
    a = .rmWatch := by
  cases a <;> simp_all [Act.Fits]

theorem Pc.Reads.moving {pc : Pc} {queue : List Event} (h : pc.Reads) : Moving (w.goto pc queue) := by
  cases pc with
  | loop buf numRead firstTry =>
    cases firstTry with
    | false => exact h.elim
    | true => exact True.intro
  | select => exact True.intro
  | _ => exact h.elim

/-- The second read gets all there is. -/
theorem Moving.read {j : Nat} (hlen : w.unread.length ≤ 2) (hw : Wellformed w) (hstep : w.step (.read j) = some w') :
    ∃ pc queue, w' = w.goto pc queue ∧ pc.buffer ++ queue = w.unread ∧ Moving (w.goto pc queue) := by
  obtain ⟨pc, queue, rfl, hunread, ⟨-, hreads⟩ | ⟨buf, numRead, armed, numRead', hpc, hj, rfl, rfl⟩⟩ :=
    read_cases hw.shaped hw.sound hstep
  · exact ⟨pc, queue, rfl, hunread, hreads.moving⟩
  · refine ⟨_, _, rfl, hunread, ?_⟩
    show w.queue.drop j = []
    have hpcs := hw.sound.pc
    unfold PcSound at hpcs
    rw [hpc] at hpcs
    obtain ⟨-, ev, rfl, -⟩ := hpcs
    have hlen' : ([ev] ++ w.queue).length ≤ 2 := by
      unfold World.unread at hlen
      rw [hpc] at hlen
      exact hlen
    rw [List.length_append, List.length_singleton] at hlen'
    exact List.drop_eq_nil_of_le (by omega)

/-- A read that cannot be interrupted any more is still to be made. -/
theorem Moving.alarm (hstep : w.step .alarm = some w') :
    ∃ pc, w' = w.goto pc w.queue ∧ pc.buffer ++ w.queue = w.unread ∧ Moving (w.goto pc w.queue) := by
  obtain ⟨buf, numRead, hpc, rfl⟩ := alarm_cases hstep
  refine ⟨_, rfl, ?_, True.intro⟩
  unfold World.unread
  rw [hpc]
  rfl

/-- **What a moment of a run belongs to.** -/
inductive Phase (roots : List CStr) (w : World) : Prop
  | grow (h : Grow roots w)
  | removed (d : Dir) (k : Nat) (isDir : Bool) (h : Removed roots d k isDir w)
  | renamed (dirs : List Dir) (q : Dir) (n : FileName) (q' : Dir) (n' : FileName) (k k' cookie : Nat)
      (h : Renamed roots dirs q n q' n' k k' cookie w)
  | movedOut (q : Dir) (n : FileName) (k cookie : Nat) (h : MovedOut roots q n k cookie w)
  | rootMoved (r : CStr) (k : Nat) (isDir : Bool) (h : RootMoved roots r k isDir w)
  | zapping (path : CStr) (h : Zapping roots path w)
  | ended (h : Ended w)

/-- The `IN_DELETE_SELF` has not been processed. -/
theorem Removed.busy {isDir : Bool} (h : Removed roots d k isDir w) : w.Busy := by
  refine busy_of_event (selfEvent IN_DELETE_SELF isDir k) ?_ ?_ ?_
  · rw [h.events]
    exact List.mem_cons_self
  · exact Event.has_of_mask (selfEvent_mask ..) (by cases isDir <;> decide)
  · exact Event.has_of_mask (selfEvent_mask ..) (by cases isDir <;> decide)

/-- The `IN_MOVE_SELF` has not been processed. -/
theorem RootMoved.busy {r : CStr} {isDir : Bool} (h : RootMoved roots r k isDir w) : w.Busy := by
  refine busy_of_event (selfEvent IN_MOVE_SELF isDir k) ?_ ?_ ?_
  · rw [h.events]
    exact List.mem_cons_self
  · exact Event.has_of_mask (selfEvent_mask ..) (by cases isDir <;> decide)
  · exact Event.has_of_mask (selfEvent_mask ..) (by cases isDir <;> decide)

theorem busy_of_movedFrom (cookie : Nat) (n : FileName) (k : Nat) (hmem : movedFrom cookie n k ∈ w.unread) : w.Busy := by
  have hmask : (movedFrom cookie n k).mask = IN_MOVED_FROM ||| IN_ISDIR := rfl
  exact busy_of_event _ hmem (Event.has_of_mask hmask (by decide)) (Event.has_of_mask hmask (by decide))

/-- The first of the two events has not been processed. -/
theorem Renamed.busy {dirs : List Dir} {cookie : Nat} (h : Renamed roots dirs q n q' n' k k' cookie w) : w.Busy := by
  refine busy_of_movedFrom cookie n k ?_
  rw [h.events]
  exact List.mem_cons_self

/-- The `IN_MOVED_FROM` has not been processed. -/
theorem MovedOut.busy {cookie : Nat} (h : MovedOut roots q n k cookie w) : w.Busy := by
  refine busy_of_movedFrom cookie n k ?_
  rw [h.events]
  exact List.mem_cons_self

theorem Zapping.busy {path : CStr} (h : Zapping roots path w) : w.Busy := by
  obtain ⟨slot, rest, numRead, hpc, -⟩ := h.pc
  constructor
  · rintro ⟨hselect, -⟩
    rw [hpc] at hselect
    nomatch hselect
  · rintro ⟨hgrows, -⟩
    rw [hpc] at hgrows
    exact hgrows

theorem Ended.busy (h : Ended w) : w.Busy := by
  constructor
  · rintro ⟨hselect, -⟩
    rw [h.1] at hselect
    nomatch hselect
  · rintro ⟨hgrows, -⟩
    rw [h.1] at hgrows
    exact hgrows

section

variable {a : Act}

/-- From a state in which everything is listed or announced: directories appear, the monitor walks and
    reads, or one of the operations begins. -/
theorem Grow.step (h : Grow roots w) (hw : Wellformed w) (hG : Guard roots w a) (hstep : w.step a = some w') :
    Phase roots w' := by
  cases a with
  | attach q n new moved seen =>
    cases hstep
    exact .grow (h.attach hG)
  | detach q n =>
    cases hstep
    obtain ⟨k, h'⟩ := h.detach hG
    exact .movedOut q n k w.cookie h'
  | rename q n q' n' =>
    cases hstep
    obtain ⟨k, k', h'⟩ := h.rename hG
    exact .renamed w.dirs q n q' n' k k' w.cookie h'
  | rmdir d isDir =>
    cases hstep
    obtain ⟨k, h'⟩ := h.rmdir hG
    exact .removed d k isDir h'
  | moveRoot d isDir =>
    cases hstep
    obtain ⟨r, k, h'⟩ := h.moveRoot hG
    exact .rootMoved r k isDir h'
  | init => exact .grow (h.reinit hstep)
  | process => exact .grow (h.process hw.sound hstep)
  | read j => exact .grow (h.read hstep)
  | timeout =>
    -- the second read comes only after an `IN_MOVED_FROM`
    exfalso
    obtain ⟨buf, numRead, hpc, -⟩ := timeout_cases hstep
    have hgrows := h.pc
    rw [hpc] at hgrows
    exact hgrows
  | alarm =>
    exfalso
    obtain ⟨buf, numRead, hpc, -⟩ := alarm_cases hstep
    have hgrows := h.pc
    rw [hpc] at hgrows
    exact hgrows
  | addWatch => exact .grow (h.addWatch hw.sound hstep)
  | entry n => exact .grow (h.entry hstep)
  | endOfDir => exact .grow (h.endOfDir hw.sound hstep)
  | rmWatch =>
    exfalso
    unfold World.step at hstep
    dsimp only at hstep
    split at hstep
    · rename_i hpc
      have hgrows := h.pc
      rw [hpc] at hgrows
      exact hgrows
    · cases hstep

/-- The monitor reads as far as the `IN_DELETE_SELF`, and takes the directory off its list. -/
theorem Removed.step {isDir : Bool} (h : Removed roots d k isDir w) (hw : Wellformed w) (hG : Guard roots w a)
    (hstep : w.step a = some w') : Phase roots w' := by
  rcases (fits_of_busy h.busy hG hstep).reads h.pc with rfl | ⟨j, rfl⟩
  · rcases h.process hw.sound hstep with h' | h'
    · exact .grow h'
    · exact .ended h'
  · obtain ⟨pc, queue, rfl, hunread, ⟨-, hpc⟩ | ⟨buf, numRead, armed, -, hmore, -⟩⟩ := read_cases hw.shaped hw.sound hstep
    · exact .removed d k isDir (h.goto pc queue hunread hpc)
    · have hreads := h.pc
      rw [hmore] at hreads
      exact hreads.elim

/-- The monitor reads as far as the `IN_MOVE_SELF`, and begins to remove the subtree of the root. -/
theorem RootMoved.step {r : CStr} {isDir : Bool} (h : RootMoved roots r k isDir w) (hw : Wellformed w)
    (hG : Guard roots w a) (hstep : w.step a = some w') : Phase roots w' := by
  rcases (fits_of_busy h.busy hG hstep).reads h.pc with rfl | ⟨j, rfl⟩
  · rcases h.process hw.sound hstep with h' | h' | h'
    · exact .ended h'
    · exact .grow h'
    · exact .zapping r h'
  · obtain ⟨pc, queue, rfl, hunread, ⟨-, hpc⟩ | ⟨buf, numRead, armed, -, hmore, -⟩⟩ := read_cases hw.shaped hw.sound hstep
    · exact .rootMoved r k isDir (h.goto pc queue hunread hpc)
    · have hreads := h.pc
      rw [hmore] at hreads
      exact hreads.elim

/-- The monitor finds the two events of the rename next to each other and rewrites the paths. -/
theorem Renamed.step {dirs : List Dir} {cookie : Nat} (h : Renamed roots dirs q n q' n' k k' cookie w)
    (hw : Wellformed w) (hG : Guard roots w a) (hstep : w.step a = some w') : Phase roots w' := by
  rcases (fits_of_busy h.busy hG hstep).moving h.stage with rfl | ⟨j, rfl⟩ | rfl | rfl
  · rcases h.process hw.sound hstep with h' | h'
    · exact .grow h'
    · exact .renamed dirs q n q' n' k k' cookie h'
  · have hlen : w.unread.length ≤ 2 := by
      rw [h.events]
      exact Nat.le_refl 2
    obtain ⟨pc, queue, rfl, hunread, hstage⟩ := Moving.read hlen hw hstep
    exact .renamed dirs q n q' n' k k' cookie (h.goto pc queue hunread hstage)
  · -- there is an event to read
    exfalso
    obtain ⟨buf, numRead, hpc, hqueue, -⟩ := timeout_cases hstep
    have hpcs := hw.sound.pc
    unfold PcSound at hpcs
    rw [hpc] at hpcs
    obtain ⟨-, ev, rfl, -⟩ := hpcs
    have hev := h.events
    unfold World.unread at hev
    rw [hpc, hqueue] at hev
    nomatch (List.cons.inj hev).2
  · obtain ⟨pc, rfl, hunread, hstage⟩ := Moving.alarm hstep
    exact .renamed dirs q n q' n' k k' cookie (h.goto pc w.queue hunread hstage)

/-- The monitor finds no second event, tries again, and begins to remove the subtree. -/
theorem MovedOut.step {cookie : Nat} (h : MovedOut roots q n k cookie w) (hw : Wellformed w) (hG : Guard roots w a)
    (hstep : w.step a = some w') : Phase roots w' := by
  rcases (fits_of_busy h.busy hG hstep).moving h.stage with rfl | ⟨j, rfl⟩ | rfl | rfl
  · rcases h.process hw.sound hstep with h' | h' | h'
    · exact .movedOut q n k cookie h'
    · exact .grow h'
    · exact .zapping _ h'
  · have hlen : w.unread.length ≤ 2 := by
      rw [h.events]
      exact Nat.le_succ 1
    obtain ⟨pc, queue, rfl, hunread, hstage⟩ := Moving.read hlen hw hstep
    exact .movedOut q n k cookie (h.goto pc queue hunread hstage)
  · exact .movedOut q n k cookie (h.timeout hw.sound hstep)
  · obtain ⟨pc, rfl, hunread, hstage⟩ := Moving.alarm hstep
    exact .movedOut q n k cookie (h.goto pc w.queue hunread hstage)

/-- One watch of the subtree less; with the last of them all is listed again, or the last root is gone. -/
theorem Zapping.step {path : CStr} (h : Zapping roots path w) (hw : Wellformed w) (hG : Guard roots w a)
    (hstep : w.step a = some w') : Phase roots w' := by
  have hfits := fits_of_busy h.busy hG hstep
  obtain ⟨slot, rest, numRead, hpc, -⟩ := h.pc
  rw [hpc] at hfits
  obtain rfl := hfits.zap
  rcases h.rmWatch hw.sound hstep with h' | h'
  · exact .grow h'
  · exact .zapping path h'

/-- **One step.** -/
theorem Phase.step (h : Phase roots w) (hw : Wellformed w) (hG : Guard roots w a) (hstep : w.step a = some w') :
    Phase roots w' := by
  cases h with
  | grow h => exact h.step hw hG hstep
  | removed d k isDir h => exact h.step hw hG hstep
  | renamed dirs q n q' n' k k' cookie h => exact h.step hw hG hstep
  | movedOut q n k cookie h => exact h.step hw hG hstep
  | rootMoved r k isDir h => exact h.step hw hG hstep
  | zapping path h => exact h.step hw hG hstep
  | ended h =>
    have hfits := fits_of_busy h.busy hG hstep
    rw [h.1] at hfits
    cases a <;> exact hfits.elim

end

/-- Before its first call the monitor has no watches and no events. -/
theorem Start.wellformed (h : Start roots w) : Wellformed w where
  sound := by
    rw [h.mon]
    refine ⟨CacheSound.nil, ?_, Or.inr ?_, trivial⟩
    · show 0 = (roots.map some).count none
      rw [eq_comm, List.count_eq_zero]
      simp
    · obtain ⟨r, roots, rfl⟩ := List.exists_cons_of_ne_nil h.nonempty
      exact ⟨r, List.mem_cons_self⟩
  shaped := by
    rw [h.quiet]
    exact fun _ hev => nomatch hev

/-- Nothing is listed then, and everything is still due. -/
theorem Start.grow (h : Start roots w) : Grow roots w := by
  have hpc : w.mon.pc = .init := by rw [h.mon]; rfl
  have hroots : w.mon.rootDirPaths = roots.map some := by rw [h.mon]; rfl
  have hcache : w.mon.cache = [] := by rw [h.mon]; rfl
  have hmem : ∀ r, some r ∈ w.mon.rootDirPaths ↔ r ∈ roots := by
    intro r
    rw [hroots, List.mem_map]
    constructor
    · rintro ⟨x, hx, heq⟩
      exact Option.some.inj heq ▸ hx
    · exact fun hr => ⟨r, hr, rfl⟩
  have hbuild : w.toBuild = w.mon.rootDirPaths := by
    unfold World.toBuild
    rw [hpc]
  refine
    { apart := h.apart, tree := h.tree, watches := ⟨?_, ?_⟩, rootsNodup := ?_, rootsOld := fun r hr => (hmem r).mp hr
      never := ?_, mirror := ?_, events := ?_, walked := ?_, due := ?_, roots := ?_, built := ?_, monitored := ?_
      pc := ?_, init := fun _ => ⟨hcache, h.unwatched, h.quiet, h.nextWd⟩ }
  · intro i k hk
    rw [h.unwatched i] at hk
    nomatch hk
  · intro i j k hk
    rw [h.unwatched i] at hk
    nomatch hk
  · rw [hroots, List.filterMap_map]
    show (roots.filterMap some).Nodup
    rw [List.filterMap_some]
    exact h.nodup
  · rw [h.mon]
    rfl
  · intro s
    rw [hcache]
    constructor
    · nofun
    · rintro ⟨d, -, k, hk, -⟩
      rw [h.unwatched] at hk
      nomatch hk
  · intro ev hev
    unfold World.unread at hev
    rw [hpc, h.quiet] at hev
    nomatch hev
  · intro f hf
    rw [hpc] at hf
    nomatch hf
  · exact fun q n d _ hq => absurd (h.unwatched q.ino) hq
  · intro r hr
    obtain ⟨d, hd, hpath⟩ := List.mem_map.mp (h.present r ((hmem r).mp hr))
    refine ⟨d, hd, hpath, fun _ => Or.inr ?_⟩
    rw [hbuild]
    exact hr
  · intro r hr
    rw [hbuild] at hr
    exact hr
  · exact fun d hd => (hmem _).mpr (h.tree.root d hd)
  · rw [hpc]
    trivial

/-- What the monitor lists when it has processed everything. -/
theorem Grow.directoryList (h : Grow roots w) (hcache : CacheSound w.mon.cache) (hcalm : w.Calm) :
    (directoryList w.mon.cache).Perm (w.dirs.map fun d => d.path.str) := by
  have hlisted : (InotifyDtree.directoryList w.mon.cache).Nodup := by
    refine List.Nodup.map_on ?_ hcache.distinct.of_map
    intro s hs s' hs' heq
    obtain ⟨d, hd, k, hk, rfl⟩ := (h.mirror s).mp hs
    obtain ⟨d', hd', k', hk', rfl⟩ := (h.mirror s').mp hs'
    obtain rfl := h.tree.str_inj h.apart hd hd' heq
    rw [Option.some.inj (hk.symm.trans hk')]
  have hpaths : (w.dirs.map fun d => d.path.str).Nodup := by
    refine List.Nodup.map_on ?_ h.tree.paths.of_map
    exact fun d hd d' hd' heq => h.tree.str_inj h.apart hd hd' heq
  refine (List.perm_ext_iff_of_nodup hlisted hpaths).mpr fun p => ?_
  unfold InotifyDtree.directoryList
  rw [List.mem_map, List.mem_map]
  constructor
  · rintro ⟨s, hs, rfl⟩
    obtain ⟨d, hd, k, -, rfl⟩ := (h.mirror s).mp hs
    exact ⟨d, hd, rfl⟩
  · rintro ⟨d, hd, rfl⟩
    obtain ⟨k, hk⟩ := Option.ne_none_iff_exists'.mp (h.full hcalm hd)
    exact ⟨_, (h.mirror _).mpr ⟨d, hd, k, hk, rfl⟩, rfl⟩

/-- In no phase has the cache been rebuilt. -/
theorem Phase.never (h : Phase roots w) : w.mon.reinitCnt = 0 := by
  cases h with
  | grow h => exact h.never
  | removed d k isDir h => exact h.settled.never
  | renamed dirs q n q' n' k k' cookie h => exact h.settled.never
  | movedOut q n k cookie h => exact h.leaving.settled.never
  | rootMoved r k isDir h => exact h.leaving.settled.never
  | zapping path h => exact h.leaving.settled.never
  | ended h => exact h.2.2

/-- When everything has been processed, nothing is underway. -/
theorem Phase.calm (h : Phase roots w) (hcalm : w.Calm) : Grow roots w := by
  cases h with
  | grow h => exact h
  | removed d k isDir h => exact absurd hcalm h.busy.1
  | renamed dirs q n q' n' k k' cookie h => exact absurd hcalm h.busy.1
  | movedOut q n k cookie h => exact absurd hcalm h.busy.1
  | rootMoved r k isDir h => exact absurd hcalm h.busy.1
  | zapping path h => exact absurd hcalm h.busy.1
  | ended h => exact absurd hcalm h.busy.1

/-- There is one phase in which the monitor has exited. -/
theorem Phase.exited (h : Phase roots w) (hpc : w.mon.pc = .exited) : Ended w := by
  cases h with
  | grow h =>
    have hgrows := h.pc
    rw [hpc] at hgrows
    exact hgrows.elim
  | removed d k isDir h =>
    have hreads := h.pc
    rw [hpc] at hreads
    exact hreads.elim
  | renamed dirs q n q' n' k k' cookie h =>
    have hstage := h.stage
    unfold Moving at hstage
    rw [hpc] at hstage
    exact hstage.elim
  | movedOut q n k cookie h =>
    have hstage := h.stage
    unfold Moving at hstage
    rw [hpc] at hstage
    exact hstage.elim
  | rootMoved r k isDir h =>
    have hreads := h.pc
    rw [hpc] at hreads
    exact hreads.elim
  | zapping path h =>
    obtain ⟨slot, rest, numRead, hzap, -⟩ := h.pc
    rw [hpc] at hzap
    nomatch hzap
  | ended h => exact h

/-- **Every moment of a run** belongs to one operation. -/
theorem Start.phase {w₀ : World} (hstart : Start roots w₀) (h : Reach World.step (Guard roots) w₀ w) :
    Wellformed w ∧ Phase roots w := by
  apply h.inv (I := fun w => Wellformed w ∧ Phase roots w)
  · exact ⟨hstart.wellformed, .grow hstart.grow⟩
  · rintro w a w' ⟨hw, hphase⟩ hG hstep
    exact ⟨hw.step hstep, hphase.step hw hG hstep⟩

/-- A monitor that has processed everything and goes on has directories to watch. -/
theorem Grow.dirs_ne_nil (h : Grow roots w) (hsound : Sound w.mon) (hcalm : w.Calm) : w.dirs ≠ [] := by
  intro hnil
  have hlive := hsound.live (m := w.mon) (by rw [hcalm.1]; nofun)
  obtain ⟨r, hr⟩ := hlive.root
  obtain ⟨d, hd, -⟩ := h.roots r hr
  rw [hnil] at hd
  nomatch hd

/-- **The monitor keeps up.**  Whenever it has processed everything, it lists the directories that
    there are, and there are some; it never builds its cache again, and it exits only when no
    directory of any root is left. -/
theorem monitor_mirrors {w₀ : World} (hstart : Start roots w₀) (h : Reach World.step (Guard roots) w₀ w) :
    w.mon.reinitCnt = 0 ∧
      (w.Calm → (directoryList w.mon.cache).Perm (w.dirs.map fun d => d.path.str) ∧ w.dirs ≠ []) ∧
      (w.mon.pc = .exited → w.dirs = []) := by
  obtain ⟨hw, hphase⟩ := hstart.phase h
  refine ⟨hphase.never, fun hcalm => ?_, fun hpc => (hphase.exited hpc).2.1⟩
  have hgrow := hphase.calm hcalm
  exact ⟨hgrow.directoryList hw.sound.cache hcalm, hgrow.dirs_ne_nil hw.sound hcalm⟩

/-- The root `a`.  The directory `x` with `z` in it is moved in, `x` becomes `y` while the program has
    read only the first half of that, and `y/z` is moved out. -/
theorem monitor_mirrors_moves : ∃ w : World, w.Calm ∧
    (directoryList w.mon.cache).map CStr.bytes = [[97], [97, 47, 121]] ∧
    (directoryList w.mon.cache).Perm (w.dirs.map fun d => d.path.str) := by
  let a : CStr := ⟨[97], by decide⟩
  let x : FileName := ⟨[120], by decide⟩
  let y : FileName := ⟨[121], by decide⟩
  let z : FileName := ⟨[122], by decide⟩
  let da : Dir := ⟨⟨a, []⟩, 1⟩
  let w₀ : World := ⟨start [a], [da], [], fun _ => none, [], 1, 0⟩
  have hstart : Start [a] w₀ := by
    refine ⟨rfl, nofun, List.nodup_singleton a, by decide, ?_, by decide +kernel, by decide +kernel,
      fun _ => rfl, rfl, rfl⟩
    intro r hr s hs _
    rw [List.mem_singleton.mp hr, List.mem_singleton.mp hs]
  have hrun : (runList World.step (Guard [a]) w₀
      [.init, .addWatch, .endOfDir,
        .attach da x [⟨⟨a, [x]⟩, 2⟩, ⟨⟨a, [x, z]⟩, 3⟩] true false, .read 1, .process, .addWatch, .entry z, .addWatch,
        .endOfDir, .endOfDir,
        .rename da x da y, .read 1, .process, .read 1, .process,
        .detach ⟨⟨a, [y]⟩, 2⟩ z, .read 1, .process, .timeout, .process, .rmWatch, .read 1, .process]).map
      (fun w => (w.mon.pc, w.queue, (directoryList w.mon.cache).map CStr.bytes)) =
      some (.select, [], [[97], [97, 47, 121]]) := by decide +kernel
  obtain ⟨w, hw, hobs⟩ := Reach.of_observed hrun
  obtain ⟨hpc, hobs⟩ := Prod.mk.inj hobs
  obtain ⟨hqueue, hlist⟩ := Prod.mk.inj hobs
  exact ⟨w, ⟨hpc, hqueue⟩, hlist, ((monitor_mirrors hstart hw).2.1 ⟨hpc, hqueue⟩).1⟩

end

end LinuxInterface.InotifyDtree
