/-
  inotify/inotify_dtree.c (tlpi-dist): directories are removed and renamed, each time when everything
  before has been processed.

  1. **Trees that change** — a tree stays one (`Tree.filter`, `Tree.rename`).

  2. **Between two calms** — all that is left is watched (`Settled`), and the cache is behind by one
     operation: `Removed` and `Renamed` say by which.  Processing its events catches up.
-/
import LinuxInterface.Dist.InotifyGrow

namespace LinuxInterface.InotifyDtree

open LinuxInterface

section

variable {roots : List CStr} {w w' : World} {dirs : List Dir} {d d' q q' : Dir} {n n' : FileName}
  {k k' : Nat} {gone : Option CStr}

/-! ## Trees that change -/

/-- What is left of a tree, when with a directory everything below it goes. -/
theorem Tree.filter {f : Dir → Bool} (h : Tree roots dirs)
    (hclosed : ∀ d ∈ dirs, ∀ q ∈ dirs, ∀ n, d.path = q.path.child n → f d = true → f q = true) :
    Tree roots (dirs.filter f) where
  paths := h.paths.sublist (List.filter_sublist.map _)
  inos := h.inos.sublist (List.filter_sublist.map _)
  closed := by
    rintro d hd ⟨p, n⟩ hs
    obtain ⟨hmem, hf⟩ := List.mem_filter.mp hd
    obtain ⟨q, hq, rfl⟩ := List.mem_map.mp (h.closed d hmem (p, n) hs)
    have hpath := DirPath.split?_eq_some.mp hs
    exact List.mem_map_of_mem (List.mem_filter.mpr ⟨hq, hclosed d hmem q hq n hpath hf⟩)
  root := fun d hd => h.root d (List.mem_filter.mp hd).1
  short := fun d hd => h.short d (List.mem_filter.mp hd).1

/-- A subtree that moves. -/
theorem Tree.rename {src : DirPath} (h : Tree roots dirs) (hq : q ∈ dirs) (hnot : ¬ src.Above q.path)
    (hnew : q.path.child n ∉ dirs.map Dir.path)
    (hshort : ∀ d ∈ dirs, (d.moved src (q.path.child n)).path.str.strlen < PATH_MAX) :
    Tree roots (dirs.map (Dir.moved src (q.path.child n))) where
  paths := by
    have hfree : ∀ d ∈ dirs, ¬ src.Above d.path → ¬ (q.path.child n).Above d.path :=
      fun d hd _ habove => hnew (h.above_mem _ d hd rfl habove)
    rw [List.map_map]
    have hmap : Dir.path ∘ Dir.moved src (q.path.child n) = src.rebase (q.path.child n) ∘ Dir.path := rfl
    rw [hmap, ← List.map_map]
    refine List.Nodup.map_on ?_ h.paths
    intro p hp p' hp' heq
    obtain ⟨d, hd, rfl⟩ := List.mem_map.mp hp
    obtain ⟨d', hd', rfl⟩ := List.mem_map.mp hp'
    exact DirPath.rebase_inj (hfree d hd) (hfree d' hd') heq
  inos := by
    rw [List.map_map]
    exact h.inos
  closed := by
    rintro d' hd' ⟨p, m⟩ hs
    obtain ⟨d, hd, rfl⟩ := List.mem_map.mp hd'
    have hpath : src.rebase (q.path.child n) d.path = p.child m := DirPath.split?_eq_some.mp hs
    -- the path of a directory that stays is its old one
    have hstays : ∀ e ∈ dirs, ¬ src.Above e.path →
        e.path ∈ (dirs.map (Dir.moved src (q.path.child n))).map Dir.path := by
      intro e he hnot
      refine List.mem_map.mpr ⟨_, List.mem_map_of_mem he, ?_⟩
      exact if_neg hnot
    by_cases habove : src.Above d.path
    · by_cases hself : src = d.path
      · -- the one that moves is in `q` now
        rw [← hself, DirPath.rebase_self] at hpath
        rw [← (DirPath.child_inj hpath).1]
        exact hstays q hq hnot
      · have hne : d.path.names ≠ [] := by
          intro hnil
          obtain ⟨hroot, hnames⟩ := habove
          rw [hnil, List.prefix_nil] at hnames
          refine hself ?_
          obtain ⟨r, ns⟩ := src
          dsimp only at hroot hnames
          rw [hroot, hnames, ← hnil]
        obtain ⟨e, he, m', hd⟩ := h.parent hd hne
        rw [hd] at habove hself
        have habove' : src.Above e.path := (DirPath.above_child_iff.mp habove).resolve_left hself
        rw [hd, DirPath.rebase_child _ _ habove'] at hpath
        rw [← (DirPath.child_inj hpath).1]
        exact List.mem_map_of_mem (List.mem_map_of_mem he)
    · rw [show src.rebase (q.path.child n) d.path = d.path from if_neg habove] at hpath
      obtain ⟨e, he, rfl⟩ := List.mem_map.mp (h.closed d hd (p, m) (DirPath.split?_eq_some.mpr hpath))
      refine hstays e he fun hsrc => habove ?_
      rw [hpath]
      exact hsrc.trans (DirPath.above_child _ _)
  root := by
    intro d' hd'
    obtain ⟨d, hd, rfl⟩ := List.mem_map.mp hd'
    show (src.rebase (q.path.child n) d.path).root ∈ roots
    unfold DirPath.rebase
    split
    · exact h.root q hq
    · exact h.root d hd
  short := by
    intro d' hd'
    obtain ⟨d, hd, rfl⟩ := List.mem_map.mp hd'
    exact hshort d hd

/-! ## Everything is watched -/

/-- Everything is watched.  A root that is `gone` may still be on the program's list. -/
structure Settled (roots : List CStr) (gone : Option CStr) (w : World) : Prop extends Shape roots w where
  full : ∀ d ∈ w.dirs, w.watch d.ino ≠ none
  present : ∀ r, some r ∈ w.mon.rootDirPaths → some r ≠ gone → ∃ d ∈ w.dirs, d.path = ⟨r, []⟩
  monitored : ∀ d ∈ w.dirs, some d.path.root ∈ w.mon.rootDirPaths ∧ some d.path.root ≠ gone

theorem Grow.settled (h : Grow roots w) (hcalm : w.Calm) : Settled roots none w where
  toShape := h.toShape
  full := fun _ hd => h.full hcalm hd
  present := by
    intro r hr _
    obtain ⟨d, hd, hpath, -⟩ := h.roots r hr
    exact ⟨d, hd, hpath⟩
  monitored := fun d hd => ⟨h.monitored d hd, nofun⟩

/-- The calls between which the program has no watch to set or to remove. -/
def Pc.Reads : Pc → Prop
  | .select | .loop _ _ true => True
  | _ => False

/-- **What has been caught up with.** -/
theorem Settled.grow (h : Settled roots none w) (hmirror : Mirror w)
    (hev : ∀ ev ∈ w.unread, ∃ k, ev = ignored k) (hpc : w.mon.pc.Reads) : Grow roots w where
  toShape := h.toShape
  mirror := hmirror
  events := by
    intro ev hmem
    obtain ⟨k, rfl⟩ := hev ev hmem
    exact .ignored k
  walked := by
    unfold Pc.stack
    split
    · rename_i heq
      rw [heq] at hpc
      nomatch hpc
    · exact fun _ hf => nomatch hf
  due := fun q n d hd _ => absurd hd.unwatched (h.full d hd.dir)
  roots := by
    intro r hr
    obtain ⟨d, hd, hpath⟩ := h.present r hr nofun
    exact ⟨d, hd, hpath, fun hnone => absurd hnone (h.full d hd)⟩
  built := by
    intro r hr
    unfold World.toBuild at hr
    split at hr
    · exact hr
    · rename_i heq
      rw [heq] at hpc
      nomatch hpc
    · nomatch hr
  monitored := fun d hd => (h.monitored d hd).1
  pc := by
    revert hpc
    cases w.mon.pc with
    | loop buf numRead firstTry => cases firstTry <;> exact id
    | select => exact id
    | _ => exact False.elim
  init := by
    intro heq
    rw [heq] at hpc
    nomatch hpc

/-- The same world with the monitor at another call. -/
theorem Settled.goto (h : Settled roots gone w) (pc : Pc) (queue : List Event) :
    Settled roots gone (w.goto pc queue) where
  toShape := ⟨h.apart, h.tree, ⟨h.watches.lt, h.watches.inj⟩, h.rootsNodup, h.rootsOld, h.never⟩
  full := h.full
  present := h.present
  monitored := h.monitored

/-- A path that is a root is that of a root directory. -/
theorem Shape.root_of_str (h : Shape roots w) (hroot : d.path.root ∈ roots)
    (hlisted : some d.path.str ∈ w.mon.rootDirPaths) : d.path.names = [] := by
  have heq : (⟨d.path.str, []⟩ : DirPath) = d.path := by
    refine LinuxInterface.str_inj h.apart (h.rootsOld _ hlisted) hroot ?_
    rw [DirPath.str_root]
  rw [← heq]

/-! ### A root is given up -/

theorem isRootDirPath_iff {m : Monitor} {path : CStr} :
    m.isRootDirPath path = true ↔ some path ∈ m.rootDirPaths := by
  unfold Monitor.isRootDirPath Monitor.findRootDirPath
  rw [List.findIdx?_isSome, List.any_eq_true]
  constructor
  · rintro ⟨x, hx, h⟩
    cases x with
    | none => nomatch h
    | some r =>
      have heq : path = r := CStr.ext ((strcmp_eq_zero _ _).mp (of_decide_eq_true h))
      rw [heq]
      exact hx
  · intro h
    exact ⟨some path, h, decide_eq_true ((strcmp_eq_zero _ _).mpr rfl)⟩

/-- An entry of a list without repetitions is crossed out. -/
theorem cross_out {xs : List (Option CStr)} {j : Nat} {r : CStr} (hnodup : (xs.filterMap id).Nodup)
    (hj : xs[j]? = some (some r)) :
    (∀ x, some x ∈ xs.set j none ↔ some x ∈ xs ∧ x ≠ r) ∧ ((xs.set j none).filterMap id).Nodup := by
  obtain ⟨hlen, hget⟩ := List.getElem?_eq_some_iff.mp hj
  have hxs : xs = xs.take j ++ some r :: xs.drop (j + 1) := by
    rw [← hget, ← List.drop_eq_getElem_cons hlen, List.take_append_drop]
  have hset : xs.set j none = xs.take j ++ none :: xs.drop (j + 1) := by
    rw [List.set_eq_take_append_cons_drop, if_pos hlen]
  generalize xs.take j = as at hxs hset
  generalize xs.drop (j + 1) = bs at hxs hset
  have hmem : ∀ (x : CStr) (ys : List (Option CStr)), some x ∈ ys ↔ x ∈ ys.filterMap id := by
    intro x ys
    rw [List.mem_filterMap]
    constructor
    · exact fun h => ⟨some x, h, rfl⟩
    · rintro ⟨y, hy, heq⟩
      exact (show y = some x from heq) ▸ hy
  rw [hset, hxs]
  rw [hxs, List.filterMap_append, List.filterMap_cons_some (show id (some r) = some r from rfl)] at hnodup
  obtain ⟨hr, hnodup'⟩ := List.nodup_cons.mp (List.nodup_middle.mp hnodup)
  constructor
  · intro x
    rw [hmem, hmem, List.filterMap_append, List.filterMap_append,
      List.filterMap_cons_none (show id (none : Option CStr) = none from rfl),
      List.filterMap_cons_some (show id (some r) = some r from rfl), List.mem_append, List.mem_append,
      List.mem_cons]
    rw [List.mem_append] at hr
    constructor
    · rintro (h | h)
      · exact ⟨Or.inl h, fun heq => hr (Or.inl (heq ▸ h))⟩
      · exact ⟨Or.inr (Or.inr h), fun heq => hr (Or.inr (heq ▸ h))⟩
    · rintro ⟨h | h | h, hne⟩
      · exact Or.inl h
      · exact absurd h hne
      · exact Or.inr h
  · rw [List.filterMap_append, List.filterMap_cons_none (show id (none : Option CStr) = none from rfl)]
    exact hnodup'

/-- `zapRootDirPath` crosses out the root, and exits if it was the last. -/
theorem zapRootDirPath_cases {m : Monitor} {r : CStr} (hcount : m.ignoreRootDirs = m.rootDirPaths.count none)
    (hnodup : (m.rootDirPaths.filterMap id).Nodup) (hr : some r ∈ m.rootDirPaths) (k : Monitor → Monitor) :
    ∃ roots' : List (Option CStr), (∀ x, some x ∈ roots' ↔ some x ∈ m.rootDirPaths ∧ x ≠ r) ∧
      (roots'.filterMap id).Nodup ∧
      (((∀ x, some x ∉ roots') ∧ m.zapRootDirPath r k =
          ⟨m.cache, roots', m.ignoreRootDirs + 1, m.reinitCnt, .exited⟩) ∨
        m.zapRootDirPath r k = k ⟨m.cache, roots', m.ignoreRootDirs + 1, m.reinitCnt, m.pc⟩) := by
  obtain ⟨j, hj⟩ := Option.isSome_iff_exists.mp (isRootDirPath_iff.mpr hr)
  have hget : m.rootDirPaths[j]? = some (some r) := by
    obtain ⟨hlen, hroot, -⟩ := List.findIdx?_eq_some_iff_getElem.mp hj
    rw [List.getElem?_eq_getElem hlen]
    cases hx : m.rootDirPaths[j] with
    | none =>
      rw [hx] at hroot
      nomatch hroot
    | some x =>
      rw [hx] at hroot
      rw [CStr.ext ((strcmp_eq_zero r x).mp (of_decide_eq_true hroot))]
  obtain ⟨hmem, hnodup'⟩ := cross_out hnodup hget
  refine ⟨m.rootDirPaths.set j none, hmem, hnodup', ?_⟩
  unfold Monitor.zapRootDirPath
  rw [hj]
  dsimp only
  split
  · rename_i hall
    refine Or.inl ⟨?_, rfl⟩
    -- as many entries are crossed out as there are
    obtain ⟨hlen, hget'⟩ := List.getElem?_eq_some_iff.mp hget
    have hcount' : (m.rootDirPaths.set j none).count none = m.rootDirPaths.count none + 1 := by
      rw [List.count_set hlen, hget']
      simp
    rw [hcount, ← hcount', List.count_eq_length] at hall
    intro x hx
    nomatch hall _ hx
  · exact Or.inr rfl

/-! ### Reading and processing -/

/-- **Events are read**: they go from the queue to the buffer. -/
theorem read_cases {j : Nat} (hshaped : ∀ ev ∈ w.queue, Shaped ev) (hsound : Sound w.mon)
    (hstep : w.step (.read j) = some w') :
    ∃ pc queue, w' = w.goto pc queue ∧ pc.buffer ++ queue = w.unread ∧
      ((w.mon.pc = .select ∧ pc.Reads) ∨ ∃ buf numRead armed numRead', w.mon.pc = .more buf numRead armed ∧ 0 < j ∧
        pc = .loop (buf ++ w.queue.take j) numRead' false ∧ queue = w.queue.drop j) := by
  unfold World.step at hstep
  dsimp only at hstep
  split at hstep
  · rename_i hj
    obtain ⟨w₁, hw₁, rfl⟩ := Option.map_eq_some_iff.mp hstep
    obtain ⟨m', hm', rfl⟩ := Option.map_eq_some_iff.mp hw₁
    have htake : ∀ ev ∈ w.queue.take j, Shaped ev := fun ev hev => hshaped ev (List.mem_of_mem_take hev)
    obtain ⟨hne, ⟨hpc, rfl⟩ | ⟨buf, numRead, armed, hpc, rfl⟩⟩ := step_read hm'
    · refine ⟨.loop (w.queue.take j) (sizes (w.queue.take j)) true, w.queue.drop j, ?_, ?_, Or.inl ⟨hpc, trivial⟩⟩
      · rw [toLoop_eq w.mon ⟨Or.inl rfl, htake⟩ true, if_neg hne]
        rfl
      · unfold World.unread
        rw [hpc]
        exact List.take_append_drop j w.queue
    · have hpcs := hsound.pc
      unfold PcSound at hpcs
      rw [hpc] at hpcs
      obtain ⟨hnum, ev, rfl, hev⟩ := hpcs
      have hrest : Rest ([ev] ++ w.queue.take j) (numRead + sizes (w.queue.take j)) := by
        refine ⟨Or.inl ?_, ?_⟩
        · rw [sizes_append, hnum]
          exact (Int.natCast_add _ _).symm
        · intro e he
          rcases List.mem_append.mp he with he | he
          · rw [List.mem_singleton.mp he]
            exact hev
          · exact htake e he
      refine ⟨.loop ([ev] ++ w.queue.take j) (numRead + sizes (w.queue.take j)) false, w.queue.drop j, ?_, ?_,
        Or.inr ⟨[ev], numRead, armed, _, hpc, hj.1, rfl, rfl⟩⟩
      · rw [toLoop_eq w.mon hrest false, if_neg nofun]
        rfl
      · unfold World.unread
        rw [hpc]
        show ([ev] ++ w.queue.take j) ++ w.queue.drop j = [ev] ++ w.queue
        rw [List.append_assoc, List.take_append_drop]
  · nomatch hstep

/-- **The second read is interrupted**: nothing has come. -/
theorem timeout_cases (hstep : w.step .timeout = some w') :
    ∃ buf numRead, w.mon.pc = .more buf numRead true ∧ w.queue = [] ∧
      w' = { w with mon := w.mon.toLoop buf (numRead + -1) false } := by
  unfold World.step at hstep
  dsimp only at hstep
  split at hstep
  · rename_i buf numRead hpc
    split at hstep
    · rename_i hqueue
      obtain ⟨m', hm', rfl⟩ := Option.map_eq_some_iff.mp hstep
      obtain ⟨buf', numRead', armed, hpc', rfl⟩ := step_interrupted hm'
      obtain ⟨rfl, rfl, -⟩ := Pc.more.inj (hpc.symm.trans hpc')
      exact ⟨buf, numRead, hpc, hqueue, rfl⟩
    · nomatch hstep
  · nomatch hstep

/-- **The alarm comes too early.** -/
theorem alarm_cases (hstep : w.step .alarm = some w') :
    ∃ buf numRead, w.mon.pc = .more buf numRead true ∧ w' = w.goto (.more buf numRead false) w.queue := by
  obtain ⟨m', hm', rfl⟩ := Option.map_eq_some_iff.mp hstep
  obtain ⟨buf, numRead, hpc, rfl⟩ := step_alarm hm'
  exact ⟨buf, numRead, hpc, rfl⟩

/-- **An event is processed.** -/
theorem process_cases (hsound : Sound w.mon) (hstep : w.step .process = some w') :
    ∃ ev rest numRead firstTry, w.mon.pc = .loop (ev :: rest) numRead firstTry ∧
      Buffer (ev :: rest) numRead firstTry ∧
      w' = { w with mon := w.mon.processNextInotifyEvent ev rest numRead firstTry } := by
  obtain ⟨m', hm', rfl⟩ := Option.map_eq_some_iff.mp hstep
  obtain ⟨buf, numRead, firstTry, hpc, hm'⟩ := step_process hm'
  have hpcs := hsound.pc
  unfold PcSound at hpcs
  rw [hpc] at hpcs
  cases buf with
  | nil => exact absurd rfl hpcs.2.1
  | cons ev rest => exact ⟨ev, rest, numRead, firstTry, hpc, hpcs, by rw [hm' ev rest rfl]⟩

theorem selfEvent_mask (mask : BitVec 32) (isDir : Bool) (k : Nat) :
    (selfEvent mask isDir k).mask = mask ||| if isDir then IN_ISDIR else 0 := rfl

/-- An event whose watch is in the cache is processed with its slot. -/
theorem withSlot_eq {m : Monitor} {ev : Event} {p : CStr} (hc : CacheSound m.cache)
    (hs : (⟨k, p⟩ : Watch) ∈ used m.cache) (hwd : ev.wd = k) (hign : ev.has IN_IGNORED = false) :
    ∃ slot, m.cache[slot]? = some ⟨k, p⟩ ∧ findWatch m.cache ev.wd = some slot ∧
      ∀ f : Nat → CStr → Monitor, m.withSlot ev f = f slot p := by
  obtain ⟨slot, hslot, hget⟩ := findWatch_of_mem hc hs
  have hfound : findWatch m.cache ev.wd = some slot := by
    rw [hwd]
    exact hslot
  refine ⟨slot, hget, hfound, fun f => ?_⟩
  have hne : ev.wd ≠ -1 := by
    rw [hwd]
    omega
  unfold Monitor.withSlot Monitor.evCacheSlot
  rw [if_pos ⟨hne, hign⟩, hfound]
  dsimp only
  rw [hget]

/-- A watched directory has been deleted. -/
theorem process_deleteSelf {m : Monitor} {p : CStr} (hc : CacheSound m.cache)
    (hs : (⟨k, p⟩ : Watch) ∈ used m.cache) (isDir : Bool) (rest : List Event) (bufSize : Int) (firstTry : Bool) :
    ∃ slot, m.cache[slot]? = some ⟨k, p⟩ ∧
      m.processNextInotifyEvent (selfEvent IN_DELETE_SELF isDir k) rest bufSize firstTry =
        let mark (m : Monitor) : Monitor := Monitor.toLoop { m with cache := markCacheSlotEmpty m.cache slot } rest
          (bufSize - (selfEvent IN_DELETE_SELF isDir k).size) true
        if m.isRootDirPath p then m.zapRootDirPath p mark else mark m := by
  have hign : (selfEvent IN_DELETE_SELF isDir k).has IN_IGNORED = false :=
    Event.has_of_mask (selfEvent_mask ..) (by cases isDir <;> decide)
  have hnew : (selfEvent IN_DELETE_SELF isDir k).has (IN_CREATE ||| IN_MOVED_TO) = false :=
    Event.has_of_mask (selfEvent_mask ..) (by cases isDir <;> decide)
  have hdel : (selfEvent IN_DELETE_SELF isDir k).has IN_DELETE_SELF = true :=
    Event.has_of_mask (selfEvent_mask ..) (by cases isDir <;> decide)
  obtain ⟨slot, hget, hfound, hslot⟩ := withSlot_eq hc hs rfl hign
  refine ⟨slot, hget, ?_⟩
  unfold Monitor.processNextInotifyEvent
  rw [hfound, if_neg fun h => (nomatch h.2.2), hnew, if_neg fun h => (nomatch h.2), if_pos hdel, hslot]

/-- A root has been moved. -/
theorem process_moveSelf {m : Monitor} {p : CStr} (hc : CacheSound m.cache)
    (hs : (⟨k, p⟩ : Watch) ∈ used m.cache) (hroot : m.isRootDirPath p = true) (isDir : Bool)
    (rest : List Event) (bufSize : Int) (firstTry : Bool) :
    m.processNextInotifyEvent (selfEvent IN_MOVE_SELF isDir k) rest bufSize firstTry =
      m.zapRootDirPath p fun m =>
        m.zapSubtree p 0 (.event rest (bufSize - (selfEvent IN_MOVE_SELF isDir k).size)) := by
  have hflag : ∀ flags, (∀ isDir : Bool,
      decide ((IN_MOVE_SELF ||| if isDir then IN_ISDIR else 0) &&& flags ≠ 0) = false) →
      (selfEvent IN_MOVE_SELF isDir k).has flags = false :=
    fun flags h => Event.has_of_mask (selfEvent_mask ..) (h isDir)
  have hmove : (selfEvent IN_MOVE_SELF isDir k).has IN_MOVE_SELF = true :=
    Event.has_of_mask (selfEvent_mask ..) (by cases isDir <;> decide)
  have hfrom : ¬ (selfEvent IN_MOVE_SELF isDir k).mask &&& (IN_MOVED_FROM ||| IN_ISDIR) =
      IN_MOVED_FROM ||| IN_ISDIR := by
    rw [selfEvent_mask]
    cases isDir <;> decide
  obtain ⟨slot, -, hfound, hslot⟩ := withSlot_eq hc hs rfl (hflag IN_IGNORED (by decide))
  unfold Monitor.processNextInotifyEvent
  rw [hfound, if_neg fun h => (nomatch h.2.2), hflag (IN_CREATE ||| IN_MOVED_TO) (by decide),
    if_neg fun h => (nomatch h.2), hflag IN_DELETE_SELF (by decide), if_neg nofun, if_neg hfrom,
    hflag IN_Q_OVERFLOW (by decide), if_neg nofun, hflag IN_UNMOUNT (by decide), if_neg nofun, if_pos hmove,
    hslot, if_pos hroot]

/-- A directory has been moved away. -/
theorem process_movedFrom {m : Monitor} {p : CStr} (hc : CacheSound m.cache)
    (hs : (⟨k, p⟩ : Watch) ∈ used m.cache) (cookie : Nat) (rest : List Event) (bufSize : Int) (firstTry : Bool) :
    m.processNextInotifyEvent (movedFrom cookie n k) rest bufSize firstTry =
      m.movedFrom (movedFrom cookie n k) rest bufSize firstTry p := by
  have hmask : (movedFrom cookie n k).mask = IN_MOVED_FROM ||| IN_ISDIR := rfl
  have hign : (movedFrom cookie n k).has IN_IGNORED = false := Event.has_of_mask hmask (by decide)
  have hnew : (movedFrom cookie n k).has (IN_CREATE ||| IN_MOVED_TO) = false := Event.has_of_mask hmask (by decide)
  have hdel : (movedFrom cookie n k).has IN_DELETE_SELF = false := Event.has_of_mask hmask (by decide)
  have hfrom : (movedFrom cookie n k).mask &&& (IN_MOVED_FROM ||| IN_ISDIR) = IN_MOVED_FROM ||| IN_ISDIR := by
    rw [hmask]
    decide
  obtain ⟨slot, -, hfound, hslot⟩ := withSlot_eq hc hs rfl hign
  unfold Monitor.processNextInotifyEvent
  rw [hfound, if_neg fun h => (nomatch h.2.2), hnew, if_neg fun h => (nomatch h.2), hdel, if_neg nofun,
    if_pos hfrom, hslot]

/-- A slot that is emptied is gone, and no other. -/
theorem mem_used_mark {C : Cache} {slot : Nat} {s s₀ : Watch} (hc : CacheSound C) (hget : C[slot]? = some s₀)
    (hwd : 0 ≤ s₀.wd) : s ∈ used (markCacheSlotEmpty C slot) ↔ s ∈ used C ∧ s.wd ≠ s₀.wd := by
  have hperm := used_markCacheSlotEmpty hget hwd
  have hnodup : ((s₀ :: used (markCacheSlotEmpty C slot)).map Watch.wd).Nodup :=
    (hperm.map Watch.wd).nodup_iff.mp hc.distinct
  obtain ⟨hnot, -⟩ := List.nodup_cons.mp hnodup
  rw [hperm.mem_iff, List.mem_cons]
  constructor
  · exact fun h => ⟨Or.inr h, fun heq => hnot (heq ▸ List.mem_map_of_mem h)⟩
  · rintro ⟨rfl | h, hne⟩
    · exact absurd rfl hne
    · exact h

/-- The events that are left only say that watches are gone. -/
theorem Settled.toLoop {rest : List Event} {numRead : Int} (h : Settled roots none w) (hmirror : Mirror w)
    (hrest : Rest rest numRead) (hev : ∀ ev ∈ rest ++ w.queue, ∃ k, ev = ignored k) :
    Grow roots { w with mon := w.mon.toLoop rest numRead true } := by
  rw [toLoop_eq w.mon hrest true]
  refine (h.goto _ w.queue).grow hmirror ?_ ?_
  · intro ev hmem
    refine hev ev ?_
    rw [World.unread_goto] at hmem
    split at hmem
    · rename_i hnil
      rw [hnil]
      exact hmem
    · exact hmem
  · show Pc.Reads (if _ then _ else _)
    split
    · trivial
    · trivial

/-- The last directory is gone, and so is the program. -/
def Ended (w : World) : Prop := w.mon.pc = .exited ∧ w.dirs = [] ∧ w.mon.reinitCnt = 0

/-- Without a root there is no directory. -/
theorem Settled.dirs_eq_nil {r : CStr} {roots' : List (Option CStr)} (h : Settled roots (some r) w)
    (hmem : ∀ x, some x ∈ roots' ↔ some x ∈ w.mon.rootDirPaths ∧ x ≠ r) (hnone : ∀ x, some x ∉ roots') :
    w.dirs = [] := by
  refine List.eq_nil_iff_forall_not_mem.mpr fun d hd => ?_
  obtain ⟨hlisted, hne⟩ := h.monitored d hd
  exact hnone d.path.root ((hmem _).mpr ⟨hlisted, fun heq => hne (congrArg some heq)⟩)

/-! ### A directory is removed -/

/-- The directory `d` is gone, and the cache still has it. -/
structure Removed (roots : List CStr) (d : Dir) (k : Nat) (isDir : Bool) (w : World) : Prop where
  settled : Settled roots (if d.path.names = [] then some d.path.root else none) w
  root : d.path.root ∈ roots
  listed : d.path.names = [] → some d.path.root ∈ w.mon.rootDirPaths
  unused : ∀ i, w.watch i ≠ some k
  mirror : ∀ s, s ∈ used w.mon.cache ↔ (∃ d' ∈ w.dirs, w.slot d' s) ∨ s = ⟨k, d.path.str⟩
  events : w.unread = [selfEvent IN_DELETE_SELF isDir k, ignored k]
  pc : w.mon.pc.Reads

/-- Nothing is underway when everything has been processed. -/
theorem World.Calm.unread (h : w.Calm) : w.unread = [] := by
  unfold World.unread
  rw [h.1, h.2]
  rfl

theorem Grow.rmdir {isDir : Bool} (h : Grow roots w) (hG : Guard roots w (.rmdir d isDir)) :
    ∃ k, Removed roots d k isDir (w.rmdir d isDir) := by
  obtain ⟨hcalm, hd, hleaf⟩ := hG
  have hset := h.settled hcalm
  obtain ⟨k, hk⟩ := Option.ne_none_iff_exists'.mp (hset.full d hd)
  have hmem : ∀ d', d' ∈ w.dirs.filter (· ≠ d) ↔ d' ∈ w.dirs ∧ d' ≠ d := by
    intro d'
    rw [List.mem_filter, decide_eq_true_eq]
  have hino : ∀ d' ∈ w.dirs, d' ≠ d → Function.update w.watch d.ino none d'.ino = w.watch d'.ino :=
    fun d' hd' hne => Function.update_of_ne (fun heq => hne (h.tree.ino_inj hd' hd heq)) _ _
  have hold : ∀ i j, Function.update w.watch d.ino none i = some j → w.watch i = some j ∧ i ≠ d.ino := by
    intro i j hi
    by_cases hid : i = d.ino
    · subst hid
      rw [Function.update_self] at hi
      nomatch hi
    · rw [Function.update_of_ne hid] at hi
      exact ⟨hi, hid⟩
  refine ⟨k, ?_, h.tree.root d hd, ?_, ?_, ?_, ?_, ?_⟩
  · refine
      { toShape := ⟨h.apart, ?_, ⟨?_, ?_⟩, h.rootsNodup, h.rootsOld, h.never⟩
        full := ?_, present := ?_, monitored := ?_ }
    · -- nothing was in the directory
      refine h.tree.filter fun d' hd' q hq n hpath hf => ?_
      have hne : d' ≠ d := of_decide_eq_true hf
      refine decide_eq_true ?_
      rintro rfl
      refine hne (hleaf d' hd' ?_)
      rw [hpath]
      exact DirPath.above_child _ _
    · exact fun i j hi => h.watches.lt i j (hold i j hi).1
    · exact fun i i' j hi hi' => h.watches.inj i i' j (hold i j hi).1 (hold i' j hi').1
    · intro d' hd'
      obtain ⟨hd', hne⟩ := (hmem d').mp hd'
      show Function.update w.watch d.ino none d'.ino ≠ none
      rw [hino d' hd' hne]
      exact hset.full d' hd'
    · intro r hr hgone
      obtain ⟨d', hd', hpath⟩ := hset.present r hr nofun
      refine ⟨d', (hmem d').mpr ⟨hd', ?_⟩, hpath⟩
      rintro rfl
      rw [hpath, if_pos rfl] at hgone
      exact hgone rfl
    · intro d' hd'
      obtain ⟨hd', hne⟩ := (hmem d').mp hd'
      refine ⟨(hset.monitored d' hd').1, ?_⟩
      split
      · rename_i hnil
        intro heq
        refine hne (hleaf d' hd' ⟨(Option.some.inj heq).symm, ?_⟩)
        rw [hnil]
        exact List.nil_prefix
      · nofun
  · exact fun _ => (hset.monitored d hd).1
  · intro i hi
    obtain ⟨hi, hne⟩ := hold i k hi
    exact hne (h.watches.inj i d.ino k hi hk)
  · intro s
    refine (h.mirror s).trans ⟨?_, ?_⟩
    · rintro ⟨d', hd', j, hj, rfl⟩
      by_cases hdd : d' = d
      · subst hdd
        rw [Option.some.inj (hj.symm.trans hk)]
        exact Or.inr rfl
      · exact Or.inl ⟨d', (hmem d').mpr ⟨hd', hdd⟩, j, (hino d' hd' hdd).trans hj, rfl⟩
    · rintro (⟨d', hd', j, hj, rfl⟩ | rfl)
      · exact ⟨d', ((hmem d').mp hd').1, j, (hold _ j hj).1, rfl⟩
      · exact ⟨d, hd, k, hk, rfl⟩
  · show w.mon.pc.buffer ++ (w.queue ++ w.report d.ino _ ++ w.report d.ino _) = _
    unfold World.report
    rw [hk, hcalm.1, hcalm.2]
    rfl
  · show w.mon.pc.Reads
    rw [hcalm.1]
    trivial

/-- Reading does not change what is to be done. -/
theorem Removed.goto {isDir : Bool} (h : Removed roots d k isDir w) (pc : Pc) (queue : List Event)
    (hunread : pc.buffer ++ queue = w.unread) (hpc : pc.Reads) : Removed roots d k isDir (w.goto pc queue) :=
  ⟨h.settled.goto pc queue, h.root, h.listed, h.unused, h.mirror, hunread.trans h.events, hpc⟩

/-- **The removal is processed.** -/
theorem Removed.process {isDir : Bool} (h : Removed roots d k isDir w) (hsound : Sound w.mon)
    (hstep : w.step .process = some w') : Grow roots w' ∨ Ended w' := by
  obtain ⟨ev, rest, numRead, firstTry, hpc, hbuf, rfl⟩ := process_cases hsound hstep
  have hunread : ev :: (rest ++ w.queue) = [selfEvent IN_DELETE_SELF isDir k, ignored k] := by
    rw [← h.events]
    unfold World.unread
    rw [hpc]
    rfl
  obtain ⟨rfl, hrest⟩ := List.cons.inj hunread
  have hev : ∀ ev ∈ rest ++ w.queue, ∃ k, ev = ignored k := by
    rw [hrest]
    exact fun ev hev => ⟨k, List.mem_singleton.mp hev⟩
  have hslot : (⟨k, d.path.str⟩ : Watch) ∈ used w.mon.cache := (h.mirror _).mpr (Or.inr rfl)
  obtain ⟨slot, hget, hproc⟩ := process_deleteSelf hsound.cache hslot isDir rest numRead firstTry
  rw [hproc]
  -- without the slot, the cache has what is there
  have hmirror : ∀ s, s ∈ used (markCacheSlotEmpty w.mon.cache slot) ↔ ∃ d' ∈ w.dirs, w.slot d' s := by
    intro s
    rw [mem_used_mark hsound.cache hget (Int.natCast_nonneg k), h.mirror s]
    constructor
    · rintro ⟨hs | rfl, hne⟩
      · exact hs
      · exact absurd rfl hne
    · rintro ⟨d', hd', j, hj, rfl⟩
      refine ⟨Or.inl ⟨d', hd', j, hj, rfl⟩, fun heq => ?_⟩
      exact h.unused d'.ino (Int.ofNat.inj heq ▸ hj)
  dsimp only
  by_cases hroot : d.path.names = []
  · have hstr : d.path.str = d.path.root := by
      rw [← DirPath.str_root d.path.root, ← hroot]
    have hset := h.settled
    rw [if_pos hroot] at hset
    have hlisted := h.listed hroot
    rw [hstr, if_pos (isRootDirPath_iff.mpr hlisted)]
    obtain ⟨roots', hmem, hnodup, ⟨hnone, heq⟩ | heq⟩ := zapRootDirPath_cases hsound.ignored hset.rootsNodup hlisted
      fun m => Monitor.toLoop { m with cache := markCacheSlotEmpty m.cache slot } rest
        (numRead - (selfEvent IN_DELETE_SELF isDir k).size) true
    · rw [heq]
      exact Or.inr ⟨rfl, hset.dirs_eq_nil hmem hnone, hset.never⟩
    · rw [heq]
      refine Or.inl (Settled.toLoop (w := { w with mon := ⟨markCacheSlotEmpty w.mon.cache slot, roots',
        w.mon.ignoreRootDirs + 1, w.mon.reinitCnt, w.mon.pc⟩ }) ?_ hmirror hbuf.tail hev)
      refine
        { toShape := ⟨hset.apart, hset.tree, ⟨hset.watches.lt, hset.watches.inj⟩, hnodup, ?_, hset.never⟩
          full := hset.full, present := ?_, monitored := ?_ }
      · exact fun r hr => hset.rootsOld r ((hmem r).mp hr).1
      · intro r hr _
        obtain ⟨hr, hne⟩ := (hmem r).mp hr
        exact hset.present r hr fun heq => hne (Option.some.inj heq)
      · intro d' hd'
        obtain ⟨hd', hne⟩ := hset.monitored d' hd'
        exact ⟨(hmem _).mpr ⟨hd', fun heq => hne (congrArg some heq)⟩, nofun⟩
  · have hset := h.settled
    rw [if_neg hroot] at hset
    have hnot : ¬ w.mon.isRootDirPath d.path.str = true :=
      fun hlisted => hroot (hset.root_of_str h.root (isRootDirPath_iff.mp hlisted))
    rw [if_neg hnot]
    refine Or.inl (Settled.toLoop (w := { w with mon := { w.mon with
      cache := markCacheSlotEmpty w.mon.cache slot } }) ?_ hmirror hbuf.tail hev)
    exact
      { toShape := ⟨hset.apart, hset.tree, ⟨hset.watches.lt, hset.watches.inj⟩, hset.rootsNodup, hset.rootsOld,
          hset.never⟩
        full := hset.full, present := hset.present, monitored := hset.monitored }

/-! ### A directory is renamed -/

/-- An `IN_MOVED_FROM` is to be processed: for the first time, or again, when there is nothing more to
    read. -/
def Moving (w : World) : Prop :=
  match w.mon.pc with
  | .select | .loop _ _ true | .more _ _ _ => True
  | .loop _ _ false => w.queue = []
  | _ => False

/-- The program waits for what comes after it. -/
theorem movedFrom_more {m : Monitor} {ev : Event} {numRead : Int} (hbuf : Buffer [ev] numRead true) (p : CStr) :
    m.movedFrom ev [] numRead true p = { m with pc := .more [ev] numRead true } := by
  have hlast : ¬ (ev.size : Int) < numRead := fun hlt => hbuf.next.1.mp hlt rfl
  unfold Monitor.movedFrom
  rw [if_neg hlast, if_neg nofun]

/-- Nothing came after it. -/
theorem movedFrom_out {m : Monitor} {ev : Event} {numRead : Int} (hbuf : Buffer [ev] numRead false) (p : CStr) :
    m.movedFrom ev [] numRead false p = m.zapSubtree (snprintf (PATH_MAX + NAME_MAX) (p.slash ev.name)) 0
      (.event [] (numRead - ev.size)) := by
  have hlast : ¬ (ev.size : Int) < numRead := fun hlt => hbuf.next.1.mp hlt rfl
  unfold Monitor.movedFrom
  rw [if_neg hlast, if_pos rfl]

/-- The other half of a rename came after it. -/
theorem movedFrom_pair {m : Monitor} {ev next : Event} {rest : List Event} {numRead : Int} {firstTry : Bool}
    {p p' : CStr} (hbuf : Buffer (ev :: next :: rest) numRead firstTry) (hc : CacheSound m.cache)
    (hs : (⟨k, p'⟩ : Watch) ∈ used m.cache) (hwd : next.wd = k) (hto : next.has IN_MOVED_TO = true)
    (hcookie : next.cookie = ev.cookie) :
    m.movedFrom ev (next :: rest) numRead firstTry p =
      Monitor.toLoop { m with cache := rewriteCachedPaths m.cache p ev.name p' next.name } rest
        (numRead - ev.size - next.size) true := by
  obtain ⟨slot, hslot, hget⟩ := findWatch_of_mem hc hs
  have hfound : findWatch m.cache next.wd = some slot := by
    rw [hwd]
    exact hslot
  have hmore : (ev.size : Int) < numRead := hbuf.next.1.mpr nofun
  unfold Monitor.movedFrom
  dsimp only
  rw [if_pos hmore, if_pos ⟨hto, hcookie⟩, hfound]
  dsimp only
  rw [hget]

/-- The directory `n` in `q` is `n'` in `q'` now; the cache has the paths of before, `dirs`. -/
structure Renamed (roots : List CStr) (dirs : List Dir) (q : Dir) (n : FileName) (q' : Dir) (n' : FileName)
    (k k' cookie : Nat) (w : World) : Prop where
  settled : Settled roots none w
  tree : Tree roots dirs
  moved : w.dirs = dirs.map (Dir.moved (q.path.child n) (q'.path.child n'))
  src : ∃ d ∈ dirs, d.path = q.path.child n
  memSrc : q ∈ dirs
  memDst : q' ∈ dirs
  watchSrc : w.watch q.ino = some k
  watchDst : w.watch q'.ino = some k'
  mirror : ∀ s, s ∈ used w.mon.cache ↔ ∃ d ∈ dirs, w.slot d s
  events : w.unread = [movedFrom cookie n k, appeared true cookie n' k']
  stage : Moving w

theorem Grow.rename (h : Grow roots w) (hG : Guard roots w (.rename q n q' n')) :
    ∃ k k', Renamed roots w.dirs q n q' n' k k' w.cookie (w.rename q n q' n') := by
  obtain ⟨hcalm, hq, hq', hsrc, hdst, hnot, hshort⟩ := hG
  have hset := h.settled hcalm
  obtain ⟨k, hk⟩ := Option.ne_none_iff_exists'.mp (hset.full q hq)
  obtain ⟨k', hk'⟩ := Option.ne_none_iff_exists'.mp (hset.full q' hq')
  obtain ⟨d, hd, hpath⟩ := List.mem_map.mp hsrc
  refine ⟨k, k', ?_, h.tree, rfl, ⟨d, hd, hpath⟩, hq, hq', hk, hk', h.mirror, ?_, ?_⟩
  · refine
      { toShape := ⟨h.apart, h.tree.rename hq' hnot hdst hshort, ⟨h.watches.lt, h.watches.inj⟩, h.rootsNodup,
          h.rootsOld, h.never⟩
        full := ?_, present := ?_, monitored := ?_ }
    · intro d' hd'
      obtain ⟨d, hd, rfl⟩ := List.mem_map.mp hd'
      exact hset.full d hd
    · intro r hr _
      obtain ⟨d, hd, hpath⟩ := hset.present r hr nofun
      refine ⟨_, List.mem_map_of_mem hd, ?_⟩
      -- a root is not below anything
      have hroot : ¬ (q.path.child n).Above d.path := by
        rintro ⟨-, hnames⟩
        rw [hpath] at hnames
        have hnil : q.path.names ++ [n] = [] := List.prefix_nil.mp hnames
        exact absurd hnil (by simp)
      rw [show (d.moved (q.path.child n) (q'.path.child n')).path = d.path from if_neg hroot]
      exact hpath
    · intro d' hd'
      obtain ⟨d, hd, rfl⟩ := List.mem_map.mp hd'
      show some ((q.path.child n).rebase (q'.path.child n') d.path).root ∈ w.mon.rootDirPaths ∧ _
      refine ⟨?_, nofun⟩
      unfold DirPath.rebase
      split
      · exact h.monitored q' hq'
      · exact h.monitored d hd
  · show w.mon.pc.buffer ++ (w.queue ++ w.report q.ino _ ++ w.report q'.ino _) = _
    unfold World.report
    rw [hk, hk', hcalm.1, hcalm.2]
    rfl
  · unfold Moving
    rw [show (w.rename q n q' n').mon.pc = .select from hcalm.1]
    trivial

/-- The program rewrites the path of a directory as the directory has moved. -/
theorem rewritten_slot (src dst : DirPath) (hroots : Apart roots) (hsrc : src.root ∈ roots) (hd : d.path.root ∈ roots)
    (hshort : (d.moved src dst).path.str.strlen < PATH_MAX) (k : Int) :
    rewritten src.str dst.str ⟨k, d.path.str⟩ = ⟨k, (d.moved src dst).path.str⟩ := by
  unfold rewritten
  by_cases habove : src.Above d.path
  · rw [if_pos (inSubtree_iff.mpr ((within_str hroots hsrc hd).mpr habove)), ← str_rebase dst habove]
    exact congrArg (Watch.mk k) (snprintf_eq hshort)
  · rw [if_neg fun h => habove ((within_str hroots hsrc hd).mp (inSubtree_iff.mp h))]
    rw [show (d.moved src dst).path = d.path from if_neg habove]

theorem Renamed.goto {cookie : Nat} (h : Renamed roots dirs q n q' n' k k' cookie w) (pc : Pc)
    (queue : List Event) (hunread : pc.buffer ++ queue = w.unread)
    (hstage : Moving (w.goto pc queue)) : Renamed roots dirs q n q' n' k k' cookie (w.goto pc queue) :=
  ⟨h.settled.goto pc queue, h.tree, h.moved, h.src, h.memSrc, h.memDst, h.watchSrc, h.watchDst, h.mirror,
    hunread.trans h.events, hstage⟩

/-- **The rename is processed**, or the program reads once more. -/
theorem Renamed.process {cookie : Nat} (h : Renamed roots dirs q n q' n' k k' cookie w) (hsound : Sound w.mon)
    (hstep : w.step .process = some w') :
    Grow roots w' ∨ Renamed roots dirs q n q' n' k k' cookie w' := by
  obtain ⟨ev, rest, numRead, firstTry, hpc, hbuf, rfl⟩ := process_cases hsound hstep
  have hunread : ev :: (rest ++ w.queue) = [movedFrom cookie n k, appeared true cookie n' k'] := by
    rw [← h.events]
    unfold World.unread
    rw [hpc]
    rfl
  obtain ⟨rfl, hrest⟩ := List.cons.inj hunread
  have hslot : (⟨k, q.path.str⟩ : Watch) ∈ used w.mon.cache := (h.mirror _).mpr ⟨q, h.memSrc, k, h.watchSrc, rfl⟩
  have hslot' : (⟨k', q'.path.str⟩ : Watch) ∈ used w.mon.cache :=
    (h.mirror _).mpr ⟨q', h.memDst, k', h.watchDst, rfl⟩
  rw [process_movedFrom hsound.cache hslot]
  cases rest with
  | nil =>
    -- the other half is still in the queue, so this is the first try
    have hqueue : w.queue = [appeared true cookie n' k'] := hrest
    have hstage := h.stage
    unfold Moving at hstage
    rw [hpc] at hstage
    cases firstTry with
    | false =>
      rw [hqueue] at hstage
      nomatch hstage
    | true =>
      rw [movedFrom_more hbuf]
      refine Or.inr (h.goto _ w.queue ?_ trivial)
      rw [h.events, hqueue]
      rfl
  | cons next rest =>
    obtain ⟨rfl, hnil⟩ := List.cons.inj hrest
    obtain ⟨rfl, hqueue⟩ := List.append_eq_nil_iff.mp hnil
    have hto : (appeared true cookie n' k').has IN_MOVED_TO = true := Event.has_of_mask (appeared_mask ..) (by decide)
    rw [movedFrom_pair hbuf hsound.cache hslot' rfl hto rfl]
    obtain ⟨d₀, hd₀, hpath₀⟩ := h.src
    have hmoved : ∀ d ∈ dirs, (d.moved (q.path.child n) (q'.path.child n')).path.str.strlen < PATH_MAX := by
      intro d hd
      refine h.settled.tree.short _ ?_
      rw [h.moved]
      exact List.mem_map_of_mem hd
    have hfull : snprintf PATH_MAX (q.path.str.slash n.str) = (q.path.child n).str := by
      rw [← DirPath.str_child]
      refine snprintf_eq ?_
      rw [← hpath₀]
      exact h.tree.short d₀ hd₀
    have hnew : snprintf PATH_MAX (q'.path.str.slash n'.str) = (q'.path.child n').str := by
      rw [← DirPath.str_child]
      refine snprintf_eq ?_
      have hself : (d₀.moved (q.path.child n) (q'.path.child n')).path = q'.path.child n' := by
        show (q.path.child n).rebase (q'.path.child n') d₀.path = _
        rw [hpath₀, DirPath.rebase_self]
      rw [← hself]
      exact hmoved d₀ hd₀
    have hsame : ∀ d ∈ dirs, ∀ j : Int, rewritten (q.path.child n).str (q'.path.child n').str ⟨j, d.path.str⟩ =
        ⟨j, (d.moved (q.path.child n) (q'.path.child n')).path.str⟩ :=
      fun d hd j => rewritten_slot (q.path.child n) _ h.settled.apart (h.tree.root q h.memSrc) (h.tree.root d hd)
        (hmoved d hd) j
    refine Or.inl (Settled.toLoop (w := { w with mon := { w.mon with
      cache := rewriteCachedPaths w.mon.cache q.path.str n.str q'.path.str n'.str } }) ?_ ?_ ?_ ?_)
    · have hset := h.settled
      exact
        { toShape := ⟨hset.apart, hset.tree, ⟨hset.watches.lt, hset.watches.inj⟩, hset.rootsNodup, hset.rootsOld,
            hset.never⟩
          full := hset.full, present := hset.present, monitored := hset.monitored }
    · intro s
      show s ∈ used (rewriteCachedPaths _ _ _ _ _) ↔ ∃ d ∈ w.dirs, w.slot d s
      rw [used_rewriteCachedPaths, hfull, hnew, List.mem_map, h.moved]
      constructor
      · rintro ⟨s₀, hs₀, rfl⟩
        obtain ⟨d, hd, j, hj, rfl⟩ := (h.mirror s₀).mp hs₀
        exact ⟨_, List.mem_map_of_mem hd, j, hj, hsame d hd j⟩
      · rintro ⟨d', hd', j, hj, rfl⟩
        obtain ⟨d, hd, rfl⟩ := List.mem_map.mp hd'
        exact ⟨_, (h.mirror _).mpr ⟨d, hd, j, hj, rfl⟩, hsame d hd j⟩
    · have hbuf' : Buffer [appeared true cookie n' k'] (numRead - (movedFrom cookie n k).size) true := by
        obtain ⟨hnum, hshaped⟩ := hbuf.tail
        rcases hnum with hnum | ⟨heq, -⟩
        · exact ⟨Or.inl hnum, nofun, hshaped⟩
        · nomatch heq
      exact hbuf'.tail
    · show ∀ ev ∈ [] ++ w.queue, _
      rw [hqueue]
      exact fun _ hev => nomatch hev

end

end LinuxInterface.InotifyDtree
