/-
  inotify/inotify_dtree.c (tlpi-dist): growing trees.

  Directories appear at any moment, also while the monitor walks through new ones.  `Grow` is the
  invariant: whatever is in a watched directory and not watched itself has an event underway, or the
  walk will come to it.

  1. **The invariant** — when nothing is underway, everything is watched (`Grow.full`).

  2. **What the program does with the events** that are underway.

  3. **The steps of the monitor** — a lemma for each of its calls.

  4. **A directory appears** — `Grow.attach`.
-/
import LinuxInterface.Dist.InotifyTree

namespace LinuxInterface.InotifyDtree

open LinuxInterface

/-! ## The invariant -/

section

variable {roots : List CStr} {w w' : World} {dirs : List Dir} {d d' q q' : Dir} {n n' : FileName}
  {k k' : Nat}

theorem Tree.path_inj (h : Tree roots dirs) (hd : d ∈ dirs) (hd' : d' ∈ dirs) (heq : d.path = d'.path) :
    d = d' :=
  List.inj_on_of_nodup_map h.paths hd hd' heq

theorem Tree.ino_inj (h : Tree roots dirs) (hd : d ∈ dirs) (hd' : d' ∈ dirs) (heq : d.ino = d'.ino) :
    d = d' :=
  List.inj_on_of_nodup_map h.inos hd hd' heq

theorem Tree.str_inj (h : Tree roots dirs) (hroots : Apart roots) (hd : d ∈ dirs) (hd' : d' ∈ dirs)
    (heq : d.path.str = d'.path.str) : d = d' :=
  h.path_inj hd hd' (LinuxInterface.str_inj hroots (h.root d hd) (h.root d' hd') heq)

/-- The directory that a directory is in. -/
theorem Tree.parent (h : Tree roots dirs) (hd : d ∈ dirs) (hne : d.path.names ≠ []) :
    ∃ q ∈ dirs, ∃ n, d.path = q.path.child n := by
  obtain ⟨⟨p, n⟩, hs⟩ := Option.ne_none_iff_exists'.mp fun hnone => hne (DirPath.split?_eq_none.mp hnone)
  obtain ⟨q, hq, hqp⟩ := List.mem_map.mp (h.closed d hd (p, n) hs)
  refine ⟨q, hq, n, ?_⟩
  rw [hqp]
  exact DirPath.split?_eq_some.mp hs

/-- All that a directory is below is there. -/
theorem Tree.above_mem (h : Tree roots dirs) {p : DirPath} : ∀ len, ∀ d ∈ dirs, d.path.names.length = len →
    p.Above d.path → p ∈ dirs.map Dir.path := by
  intro len
  induction len with
  | zero =>
    rintro d hd hlen ⟨hroot, hnames⟩
    have hnil : d.path.names = [] := List.length_eq_zero_iff.mp hlen
    rw [hnil, List.prefix_nil] at hnames
    obtain ⟨r, ns⟩ := p
    dsimp only at hroot hnames
    refine List.mem_map.mpr ⟨d, hd, ?_⟩
    rw [hroot, hnames, ← hnil]
  | succ len ih =>
    intro d hd hlen habove
    have hne : d.path.names ≠ [] := by
      intro hnil
      rw [hnil] at hlen
      nomatch hlen
    obtain ⟨q, hq, n, hpath⟩ := h.parent hd hne
    rw [hpath] at habove
    rcases DirPath.above_child_iff.mp habove with heq | habove
    · rw [heq, ← hpath]
      exact List.mem_map_of_mem hd
    · refine ih q hq ?_ habove
      rw [hpath] at hlen
      have hchild : (q.path.names ++ [n]).length = len + 1 := hlen
      rw [List.length_append] at hchild
      exact Nat.succ.inj hchild

theorem mem_children : n ∈ w.children q.path ↔ ∃ d ∈ w.dirs, d.path = q.path.child n := by
  unfold World.children
  rw [List.mem_filterMap]
  constructor
  · rintro ⟨d, hd, h⟩
    obtain ⟨⟨p, m⟩, hs, hif⟩ := Option.bind_eq_some_iff.mp h
    refine ⟨d, hd, ?_⟩
    dsimp only at hif
    split at hif
    · rename_i heq
      rw [DirPath.split?_eq_some.mp hs, heq, Option.some.inj hif]
    · nomatch hif
  · rintro ⟨d, hd, h⟩
    refine ⟨d, hd, ?_⟩
    rw [DirPath.split?_eq_some.mpr h]
    exact if_pos rfl

theorem lookup_eq (ht : Tree roots w.dirs) (hroots : Apart roots) (hd : d ∈ w.dirs) :
    w.lookup d.path.str = some d := by
  unfold World.lookup
  cases hfind : w.dirs.find? fun d' => d'.path.str = d.path.str with
  | none =>
    have hnone := List.find?_eq_none.mp hfind d hd
    exact absurd (decide_eq_true rfl) hnone
  | some d' =>
    have hfound := List.find?_some hfind
    have heq : d'.path.str = d.path.str := of_decide_eq_true hfound
    rw [ht.str_inj hroots (List.mem_of_find?_eq_some hfind) hd heq]

/-- Which watches there are. -/
structure Watches (w : World) : Prop where
  lt : ∀ i k, w.watch i = some k → k < w.nextWd
  inj : ∀ i j k, w.watch i = some k → w.watch j = some k → i = j

/-- The slot of a watched directory. -/
def World.slot (w : World) (d : Dir) (s : Watch) : Prop :=
  ∃ k : Nat, w.watch d.ino = some k ∧ s = ⟨k, d.path.str⟩

/-- The used slots are those of the watched directories. -/
def Mirror (w : World) : Prop := ∀ s, s ∈ used w.mon.cache ↔ ∃ d ∈ w.dirs, w.slot d s

/-- The directory `d` is `n` in `q` and is not watched. -/
structure Missing (w : World) (q : Dir) (n : FileName) (d : Dir) : Prop where
  parent : q ∈ w.dirs
  dir : d ∈ w.dirs
  path : d.path = q.path.child n
  unwatched : w.watch d.ino = none

/-- One of the events says that `n` has appeared in `q`. -/
def Told (w : World) (evs : List Event) (q : Dir) (n : FileName) : Prop :=
  ∃ k moved cookie, w.watch q.ino = some k ∧ appeared moved cookie n k ∈ evs

/-- The directory `n` in `q`, at `path`, will be watched: an event says so, or the walk comes to it. -/
def Pending (w : World) (q : Dir) (n : FileName) (path : CStr) : Prop :=
  Told w w.unread q n ∨
  .visit path ∈ w.mon.pc.stack ∨ ∃ due, .scan q.path.str due ∈ w.mon.pc.stack ∧ n ∈ due

/-- An event that is underway while the trees grow. -/
inductive Announced (w : World) : Event → Prop where
  | ignored (k : Nat) : Announced w (ignored k)
  | appeared {q d : Dir} {n : FileName} {k : Nat} (moved : Bool) (cookie : Nat) : q ∈ w.dirs → d ∈ w.dirs →
      d.path = q.path.child n → w.watch q.ino = some k → Announced w (appeared moved cookie n k)

/-- A directory that the walk is at. -/
inductive Walked (w : World) : Frame → Prop where
  | visit {d : Dir} : d ∈ w.dirs → Walked w (.visit d.path.str)
  | scan {q : Dir} {due : List FileName} : q ∈ w.dirs → w.watch q.ino ≠ none →
      (∀ n ∈ due, ∃ d ∈ w.dirs, d.path = q.path.child n) → Walked w (.scan q.path.str due)

/-- The calls at which the monitor is while the trees grow. -/
def Pc.Grows : Pc → Prop
  | .init | .select | .loop _ _ true | .walk (_ :: _) (.event _ _) | .walk (_ :: _) (.build _) => True
  | _ => False

/-- What holds of the world at every moment. -/
structure Shape (roots : List CStr) (w : World) : Prop where
  apart : Apart roots
  tree : Tree roots w.dirs
  watches : Watches w
  rootsNodup : (w.mon.rootDirPaths.filterMap id).Nodup
  rootsOld : ∀ r, some r ∈ w.mon.rootDirPaths → r ∈ roots
  never : w.mon.reinitCnt = 0

/-- **The invariant of growing trees.** -/
structure Grow (roots : List CStr) (w : World) : Prop extends Shape roots w where
  mirror : Mirror w
  events : ∀ ev ∈ w.unread, Announced w ev
  walked : ∀ f ∈ w.mon.pc.stack, Walked w f
  due : ∀ q n d, Missing w q n d → w.watch q.ino ≠ none → Pending w q n d.path.str
  roots : ∀ r, some r ∈ w.mon.rootDirPaths → ∃ d ∈ w.dirs, d.path = ⟨r, []⟩ ∧
    (w.watch d.ino = none → .visit r ∈ w.mon.pc.stack ∨ some r ∈ w.toBuild)
  built : ∀ r, some r ∈ w.toBuild → some r ∈ w.mon.rootDirPaths
  monitored : ∀ d ∈ w.dirs, some d.path.root ∈ w.mon.rootDirPaths
  pc : w.mon.pc.Grows
  init : w.mon.pc = .init → w.mon.cache = [] ∧ (∀ i, w.watch i = none) ∧ w.queue = [] ∧ w.nextWd = 1

/-- **When nothing is underway, everything is watched.** -/
theorem Grow.full (h : Grow roots w) (hcalm : w.Calm) (hd : d ∈ w.dirs) : w.watch d.ino ≠ none := by
  obtain ⟨hpc, hqueue⟩ := hcalm
  have hunread : w.unread = [] := by
    unfold World.unread
    rw [hpc, hqueue]
    rfl
  have hstack : w.mon.pc.stack = [] := by
    rw [hpc]
    rfl
  have hbuild : w.toBuild = [] := by
    unfold World.toBuild
    rw [hpc]
  -- from the root down
  have hlen : ∀ len, ∀ d ∈ w.dirs, d.path.names.length = len → w.watch d.ino ≠ none := by
    intro len
    induction len with
    | zero =>
      intro d hd hlen
      have hnames : d.path.names = [] := List.length_eq_zero_iff.mp hlen
      obtain ⟨d', hd', hpath, hor⟩ := h.roots d.path.root (h.monitored d hd)
      have hdd : d = d' := by
        refine h.tree.path_inj hd hd' ?_
        rw [hpath, ← hnames]
      rw [hstack, hbuild] at hor
      rw [hdd]
      intro hnone
      rcases hor hnone with hor | hor
      · nomatch hor
      · nomatch hor
    | succ len ih =>
      intro d hd hlen hnone
      have hne : d.path.names ≠ [] := by
        intro hnil
        rw [hnil] at hlen
        nomatch hlen
      obtain ⟨q, hq, n, hpath⟩ := h.tree.parent hd hne
      have hqlen : q.path.names.length = len := by
        rw [hpath] at hlen
        have hchild : (q.path.names ++ [n]).length = len + 1 := hlen
        rw [List.length_append] at hchild
        exact Nat.succ.inj hchild
      rcases h.due q n d ⟨hq, hd, hpath, hnone⟩ (ih q hq hqlen) with
        ⟨k, moved, cookie, -, hev⟩ | hvis | ⟨due, hscan, -⟩
      · rw [hunread] at hev
        nomatch hev
      · rw [hstack] at hvis
        nomatch hvis
      · rw [hstack] at hscan
        nomatch hscan
  exact hlen _ d hd rfl

/-! ## What the program does with the events -/

theorem appeared_inj {moved moved' : Bool} {cookie cookie' : Nat}
    (h : appeared moved cookie n k = appeared moved' cookie' n' k') : n = n' ∧ k = k' :=
  ⟨FileName.ext (congrArg (fun ev => ev.name.bytes) h), Int.ofNat.inj (congrArg Event.wd h)⟩

/-- The flags of an event are those of its mask. -/
theorem Event.has_of_mask {ev : Event} {mask flags : BitVec 32} {b : Bool} (h : ev.mask = mask)
    (hb : decide (mask &&& flags ≠ 0) = b) : ev.has flags = b := by
  subst h
  exact hb

theorem appeared_mask (moved : Bool) (cookie : Nat) (n : FileName) (k : Nat) :
    (appeared moved cookie n k).mask = (if moved then IN_MOVED_TO else IN_CREATE) ||| IN_ISDIR := rfl

theorem appeared_ne_ignored (moved : Bool) (cookie : Nat) : appeared moved cookie n k ≠ ignored k' := by
  intro h
  have hmask : (if moved then IN_MOVED_TO else IN_CREATE) ||| IN_ISDIR = IN_IGNORED := congrArg Event.mask h
  revert hmask
  cases moved <;> decide

/-- The slot of a descriptor that is in the cache. -/
theorem findWatch_of_mem {C : Cache} {s : Watch} (hc : CacheSound C) (hs : s ∈ used C) :
    ∃ slot, findWatch C s.wd = some slot ∧ C[slot]? = some s := by
  obtain ⟨hmem, hwd⟩ := mem_used.mp hs
  cases hfind : findWatch C s.wd with
  | none => exact absurd rfl (findWatch_eq_none.mp hfind s hmem)
  | some slot =>
    obtain ⟨s', hs', hwd'⟩ := findWatch_eq_some hfind
    have hused : s' ∈ used C := mem_used.mpr ⟨List.mem_of_getElem? hs', hwd' ▸ hwd⟩
    rw [List.inj_on_of_nodup_map hc.distinct hused hs hwd'] at hs'
    exact ⟨slot, rfl, hs'⟩

/-- What is left decides whether the loop goes on. -/
theorem toLoop_eq (m : Monitor) {rest : List Event} {numRead : Int} (h : Rest rest numRead) (firstTry : Bool) :
    m.toLoop rest numRead firstTry =
      { m with pc := if rest = [] then .select else .loop rest numRead firstTry } := by
  unfold Monitor.toLoop
  congr 1
  cases rest with
  | nil =>
    have hle : ¬ 0 < numRead := by
      have hnil : sizes [] = 0 := rfl
      rcases h.1 with h | h
      · omega
      · omega
    rw [if_neg hle, if_pos rfl]
  | cons ev rest =>
    have hlt : 0 < numRead := by
      have hcons := sizes_cons ev rest
      have hpos := size_pos ev
      rcases h.1 with h | h
      · omega
      · nomatch h.1
    rw [if_pos hlt, if_neg nofun]

theorem process_ignored (m : Monitor) (rest : List Event) (bufSize : Int) (firstTry : Bool) :
    m.processNextInotifyEvent (ignored k) rest bufSize firstTry =
      m.toLoop rest (bufSize - (ignored k).size) true := by
  simp [Monitor.processNextInotifyEvent, Event.has, ignored, IN_IGNORED, IN_ISDIR, IN_CREATE, IN_MOVED_TO,
    IN_DELETE_SELF, IN_MOVED_FROM, IN_Q_OVERFLOW, IN_UNMOUNT, IN_MOVE_SELF]

/-- A directory has appeared in one that is in the cache. -/
theorem process_appeared {m : Monitor} {p : CStr} (hc : CacheSound m.cache)
    (hs : (⟨k, p⟩ : Watch) ∈ used m.cache) (moved : Bool) (cookie : Nat) (rest : List Event) (bufSize : Int)
    (firstTry : Bool) :
    m.processNextInotifyEvent (appeared moved cookie n k) rest bufSize firstTry =
      if pathnameInCache m.cache (snprintf (PATH_MAX + NAME_MAX) (p.slash n.str)) then
        m.toLoop rest (bufSize - (appeared moved cookie n k).size) true
      else m.watchSubtree (snprintf (PATH_MAX + NAME_MAX) (p.slash n.str))
        (.event rest (bufSize - (appeared moved cookie n k).size)) := by
  obtain ⟨slot, hslot, hget⟩ := findWatch_of_mem hc hs
  have hwd : (appeared moved cookie n k).wd ≠ -1 := by
    show (k : Int) ≠ -1
    omega
  have hign : (appeared moved cookie n k).has IN_IGNORED = false :=
    Event.has_of_mask (appeared_mask ..) (by cases moved <;> decide)
  have hdir : (appeared moved cookie n k).has IN_ISDIR = true :=
    Event.has_of_mask (appeared_mask ..) (by cases moved <;> decide)
  have hnew : (appeared moved cookie n k).has (IN_CREATE ||| IN_MOVED_TO) = true :=
    Event.has_of_mask (appeared_mask ..) (by cases moved <;> decide)
  have hfound : findWatch m.cache (appeared moved cookie n k).wd = some slot := hslot
  unfold Monitor.processNextInotifyEvent Monitor.withSlot Monitor.evCacheSlot
  rw [hfound, if_neg fun h => (nomatch h.2.2), if_pos ⟨hdir, hnew⟩, if_pos ⟨hwd, hign⟩]
  dsimp only
  rw [hget]
  rfl

/-! ## The steps of the monitor -/

theorem Announced.mono {ev : Event} (h : Announced w ev) (hdirs : ∀ d ∈ w.dirs, d ∈ w'.dirs)
    (hwatch : ∀ i k, w.watch i = some k → w'.watch i = some k) : Announced w' ev := by
  cases h with
  | ignored k => exact .ignored k
  | appeared moved cookie hq hd hpath hk =>
    exact .appeared moved cookie (hdirs _ hq) (hdirs _ hd) hpath (hwatch _ _ hk)

theorem Walked.mono {f : Frame} (h : Walked w f) (hdirs : ∀ d ∈ w.dirs, d ∈ w'.dirs)
    (hwatch : ∀ i k, w.watch i = some k → w'.watch i = some k) : Walked w' f := by
  cases h with
  | visit hd => exact .visit (hdirs _ hd)
  | scan hq hk hdue =>
    refine .scan (hdirs _ hq) ?_ ?_
    · obtain ⟨k, hk⟩ := Option.ne_none_iff_exists'.mp hk
      rw [hwatch _ _ hk]
      nofun
    · intro n hn
      obtain ⟨d, hd, hpath⟩ := hdue n hn
      exact ⟨d, hdirs d hd, hpath⟩

theorem Walked.of_visit {path : CStr} (h : Walked w (.visit path)) : ∃ d ∈ w.dirs, path = d.path.str := by
  cases h with
  | visit hd => exact ⟨_, hd, rfl⟩

theorem Walked.of_scan {path : CStr} {due : List FileName} (h : Walked w (.scan path due)) :
    ∃ q ∈ w.dirs, path = q.path.str ∧ w.watch q.ino ≠ none ∧ ∀ n ∈ due, ∃ d ∈ w.dirs, d.path = q.path.child n := by
  cases h with
  | scan hq hk hdue => exact ⟨_, hq, rfl, hk, hdue⟩

/-- The monitor is at another call, and has read from the queue. -/
def World.goto (w : World) (pc : Pc) (queue : List Event) : World :=
  { w with mon := { w.mon with pc := pc }, queue := queue }

theorem World.unread_goto (w : World) (pc : Pc) (queue : List Event) :
    (w.goto pc queue).unread = pc.buffer ++ queue := rfl

/-- **A step that changes no watch.**  What was pending must be pending still. -/
theorem Grow.goto (h : Grow roots w) (pc : Pc) (queue : List Event)
    (hsub : ∀ ev ∈ pc.buffer ++ queue, ev ∈ w.unread) (hwalked : ∀ f ∈ pc.stack, Walked w f)
    (hdue : ∀ q n d, Missing w q n d → Pending w q n d.path.str →
      Pending (w.goto pc queue) q n d.path.str)
    (hroots : ∀ r, ∀ d ∈ w.dirs, d.path = ⟨r, []⟩ → w.watch d.ino = none →
      (.visit r ∈ w.mon.pc.stack ∨ some r ∈ w.toBuild) →
      (.visit r ∈ pc.stack ∨ some r ∈ (w.goto pc queue).toBuild))
    (hbuilt : ∀ r, some r ∈ (w.goto pc queue).toBuild → some r ∈ w.mon.rootDirPaths)
    (hpc : pc.Grows) (hinit : pc ≠ .init) : Grow roots (w.goto pc queue) where
  toShape := ⟨h.apart, h.tree, ⟨h.watches.lt, h.watches.inj⟩, h.rootsNodup, h.rootsOld, h.never⟩
  mirror := h.mirror
  events := fun ev hev => (h.events ev (hsub ev hev)).mono (fun _ hd => hd) fun _ _ hk => hk
  walked := fun f hf => (hwalked f hf).mono (fun _ hd => hd) fun _ _ hk => hk
  due := fun q n d hd hq =>
    have hmiss : Missing w q n d := ⟨hd.parent, hd.dir, hd.path, hd.unwatched⟩
    hdue q n d hmiss (h.due q n d hmiss hq)
  roots := by
    intro r hr
    obtain ⟨d, hd, hpath, hor⟩ := h.roots r hr
    exact ⟨d, hd, hpath, fun hnone => hroots r d hd hpath hnone (hor hnone)⟩
  built := hbuilt
  monitored := h.monitored
  pc := hpc
  init := fun hpc' => absurd hpc' hinit

/-- The walk goes on. -/
theorem Grow.gotoWalk {stack stack' : List Frame} {ret : AfterWalk} (h : Grow roots w)
    (hpc : w.mon.pc = .walk stack ret) (hne : stack' ≠ []) (hwalked : ∀ f ∈ stack', Walked w f)
    (hdue : ∀ q n d, Missing w q n d →
      (.visit d.path.str ∈ stack ∨ ∃ due, .scan q.path.str due ∈ stack ∧ n ∈ due) →
      (.visit d.path.str ∈ stack' ∨ ∃ due, .scan q.path.str due ∈ stack' ∧ n ∈ due))
    (hroots : ∀ r, ∀ d ∈ w.dirs, d.path = ⟨r, []⟩ → w.watch d.ino = none → .visit r ∈ stack →
      .visit r ∈ stack') : Grow roots (w.goto (.walk stack' ret) w.queue) := by
  have hgrows := h.pc
  have hunread : w.unread = ret.buffer ++ w.queue := by
    unfold World.unread
    rw [hpc]
    rfl
  have hbuild : w.toBuild = ret.toBuild := by
    unfold World.toBuild
    rw [hpc]
  have hstack : w.mon.pc.stack = stack := by rw [hpc]; rfl
  refine h.goto _ _ ?_ hwalked ?_ ?_ ?_ ?_ nofun
  · rw [hunread]
    exact fun _ hev => hev
  · rintro q n d hd (htold | hwalk)
    · rw [hunread] at htold
      exact Or.inl htold
    · rw [hstack] at hwalk
      exact Or.inr (hdue q n d hd hwalk)
  · rintro r d hd hpath hnone (hor | hor)
    · rw [hstack] at hor
      exact Or.inl (hroots r d hd hpath hnone hor)
    · rw [hbuild] at hor
      exact Or.inr hor
  · intro r hr
    refine h.built r ?_
    rw [hbuild]
    exact hr
  · obtain ⟨f, fs, rfl⟩ := List.exists_cons_of_ne_nil hne
    rw [hpc] at hgrows
    cases ret with
    | event rest numRead => trivial
    | build rs => trivial
    | command => cases stack <;> exact hgrows

/-- Back at the loop, with the rest of the events: nothing but events is pending. -/
theorem Grow.toLoop {rest : List Event} {numRead : Int} (h : Grow roots w) (hrest : Rest rest numRead)
    (hsub : ∀ ev ∈ rest ++ w.queue, ev ∈ w.unread)
    (hdue : ∀ q n d, Missing w q n d → Pending w q n d.path.str → Told w (rest ++ w.queue) q n)
    (hroots : ∀ r, ¬ (.visit r ∈ w.mon.pc.stack ∨ some r ∈ w.toBuild)) :
    Grow roots { w with mon := w.mon.toLoop rest numRead true } := by
  rw [toLoop_eq w.mon hrest true]
  have hbuf : Pc.buffer (if rest = [] then .select else .loop rest numRead true) = rest := by
    split
    · rename_i hnil
      exact hnil.symm
    · rfl
  have hstack : Pc.stack (if rest = [] then .select else .loop rest numRead true) = [] := by
    split
    · rfl
    · rfl
  have hbuild : (w.goto (if rest = [] then .select else .loop rest numRead true) w.queue).toBuild = [] := by
    unfold World.toBuild World.goto
    split
    · rename_i heq
      dsimp only at heq
      split at heq
      · nomatch heq
      · nomatch heq
    · rename_i heq
      dsimp only at heq
      split at heq
      · nomatch heq
      · nomatch heq
    · rfl
  refine h.goto _ _ ?_ ?_ ?_ ?_ ?_ ?_ ?_
  · rw [hbuf]
    exact hsub
  · rw [hstack]
    exact fun _ hf => nomatch hf
  · intro q n d hd hpend
    refine Or.inl ?_
    rw [World.unread_goto, hbuf]
    exact hdue q n d hd hpend
  · exact fun r _ _ _ _ hor => absurd hor (hroots r)
  · rw [hbuild]
    exact fun _ hr => nomatch hr
  · split
    · trivial
    · trivial
  · split
    · nofun
    · nofun

/-- `reinitialize` comes to the next root, or is done. -/
theorem build_cases (m : Monitor) : ∀ rs : List (Option CStr),
    ((∀ r, some r ∉ rs) ∧ m.build rs = { m with pc := .select }) ∨
    ∃ r rs', some r ∈ rs ∧ (∀ r', some r' ∈ rs → r' = r ∨ some r' ∈ rs') ∧ (∀ x ∈ rs', x ∈ rs) ∧
      m.build rs = { m with pc := .walk [.visit r] (.build rs') }
  | [] => Or.inl ⟨nofun, rfl⟩
  | none :: rs => by
    rcases build_cases m rs with ⟨hnone, heq⟩ | ⟨r, rs', hr, hall, hsub, heq⟩
    · refine Or.inl ⟨fun r hr => ?_, heq⟩
      rcases List.mem_cons.mp hr with h | h
      · nomatch h
      · exact hnone r h
    · refine Or.inr ⟨r, rs', List.mem_cons_of_mem _ hr, fun r' hr' => ?_, ?_, heq⟩
      · rcases List.mem_cons.mp hr' with h | h
        · nomatch h
        · exact hall r' h
      · exact fun x hx => List.mem_cons_of_mem _ (hsub x hx)
  | some r :: rs => by
    refine Or.inr ⟨r, rs, List.mem_cons_self, fun r' hr' => ?_, ?_, rfl⟩
    · rcases List.mem_cons.mp hr' with h | h
      · exact Or.inl (Option.some.inj h)
      · exact Or.inr h
    · exact fun x hx => List.mem_cons_of_mem _ hx

/-- The next root is walked, when the walk of the one before is at its end or none has begun. -/
theorem Grow.build (h : Grow roots w) (hbuf : w.mon.pc.buffer = [])
    (hdue : ∀ q n d, Missing w q n d → Pending w q n d.path.str → Told w w.queue q n)
    (hvisit : ∀ r, .visit r ∉ w.mon.pc.stack) : Grow roots { w with mon := w.mon.build w.toBuild } := by
  have hunread : w.unread = w.queue := by
    unfold World.unread
    rw [hbuf]
    rfl
  rcases build_cases w.mon w.toBuild with ⟨hnone, heq⟩ | ⟨r, rs, hr, hall, hsub, heq⟩
  · rw [heq]
    refine h.goto _ w.queue ?_ (fun _ hf => nomatch hf) ?_ ?_ (fun _ hr => nomatch hr) trivial nofun
    · rw [hunread]
      exact fun _ hev => hev
    · exact fun q n d hd hpend => Or.inl (hdue q n d hd hpend)
    · rintro r - - - - (hor | hor)
      · exact absurd hor (hvisit r)
      · exact absurd hor (hnone r)
  · rw [heq]
    refine h.goto _ w.queue ?_ ?_ ?_ ?_ ?_ trivial nofun
    · rw [hunread]
      exact fun _ hev => hev
    · intro f hf
      obtain rfl := List.mem_singleton.mp hf
      obtain ⟨d, hd, hpath, -⟩ := h.roots r (h.built r hr)
      have hvis : Walked w (.visit d.path.str) := .visit hd
      rw [hpath, DirPath.str_root] at hvis
      exact hvis
    · exact fun q n d hd hpend => Or.inl (hdue q n d hd hpend)
    · rintro r' - - - - (hor | hor)
      · exact absurd hor (hvisit r')
      · rcases hall r' hor with rfl | hmem
        · exact Or.inl List.mem_cons_self
        · exact Or.inr hmem
    · exact fun r' hr' => h.built r' (hsub _ hr')

/-- In the loop nothing but events is pending. -/
theorem told_of_pending {path : CStr} (hstack : w.mon.pc.stack = []) (h : Pending w q n path) :
    Told w w.unread q n := by
  rcases h with h | h | ⟨due, h, -⟩
  · exact h
  · rw [hstack] at h
    nomatch h
  · rw [hstack] at h
    nomatch h

/-- The event that announces `d` is taken from the buffer. -/
theorem Told.tail {ev : Event} {evs : List Event} (h : Told w (ev :: evs) q n)
    (hother : ∀ k moved cookie, w.watch q.ino = some k → ev ≠ appeared moved cookie n k) : Told w evs q n := by
  obtain ⟨k, moved, cookie, hk, hev⟩ := h
  rcases List.mem_cons.mp hev with heq | hmem
  · exact absurd heq.symm (hother k moved cookie hk)
  · exact ⟨k, moved, cookie, hk, hmem⟩

/-- **An event is processed.** -/
theorem Grow.process (h : Grow roots w) (hsound : Sound w.mon) (hstep : w.step .process = some w') :
    Grow roots w' := by
  obtain ⟨m', hm', rfl⟩ := Option.map_eq_some_iff.mp hstep
  have hgrows := h.pc
  have hpcs := hsound.pc
  obtain ⟨buf, numRead, firstTry, hpc, hm'⟩ := step_process hm'
  rw [hpc] at hgrows
  cases firstTry with
  | false => nomatch hgrows
  | true =>
    unfold PcSound at hpcs
    rw [hpc] at hpcs
    have hbuf : Buffer buf numRead true := hpcs
    cases buf with
    | nil => exact absurd rfl hbuf.2.1
    | cons ev rest =>
      obtain rfl := hm' ev rest rfl
      have hrest := hbuf.tail
      have hstack : w.mon.pc.stack = [] := by rw [hpc]; rfl
      have hbuild : w.toBuild = [] := by
        unfold World.toBuild
        rw [hpc]
      have hunread : w.unread = ev :: (rest ++ w.queue) := by
        unfold World.unread
        rw [hpc]
        rfl
      have hsub : ∀ e ∈ rest ++ w.queue, e ∈ w.unread := by
        rw [hunread]
        exact fun e he => List.mem_cons_of_mem _ he
      have hnoroot : ∀ r, ¬ (.visit r ∈ w.mon.pc.stack ∨ some r ∈ w.toBuild) := by
        rintro r (hor | hor)
        · rw [hstack] at hor
          nomatch hor
        · rw [hbuild] at hor
          nomatch hor
      cases h.events ev (hunread ▸ List.mem_cons_self) with
      | ignored k =>
        rw [process_ignored]
        refine h.toLoop hrest hsub ?_ hnoroot
        intro q n d hd hpend
        have htold := told_of_pending hstack hpend
        rw [hunread] at htold
        exact htold.tail fun k' moved cookie _ heq => appeared_ne_ignored moved cookie heq.symm
      | @appeared q d n k moved cookie hq hd hpath hk =>
        have hslot : (⟨k, q.path.str⟩ : Watch) ∈ used w.mon.cache := (h.mirror _).mpr ⟨q, hq, k, hk, rfl⟩
        have hfull : snprintf (PATH_MAX + NAME_MAX) (q.path.str.slash n.str) = d.path.str := by
          rw [← DirPath.str_child, ← hpath]
          exact snprintf_eq (Nat.lt_add_right NAME_MAX (h.tree.short d hd))
        -- another directory is announced by another event
        have hother : ∀ q' n' d', Missing w q' n' d' → d' ≠ d → ∀ k' moved' cookie', w.watch q'.ino = some k' →
            appeared moved cookie n k ≠ appeared moved' cookie' n' k' := by
          intro q' n' d' hd' hne k' moved' cookie' hk' heq
          obtain ⟨rfl, rfl⟩ := appeared_inj heq
          have hqq : q' = q := h.tree.ino_inj hd'.parent hq (h.watches.inj _ _ _ hk' hk)
          refine hne (h.tree.path_inj hd'.dir hd ?_)
          rw [hd'.path, hqq, hpath]
        rw [process_appeared hsound.cache hslot, hfull]
        by_cases hin : pathnameInCache w.mon.cache d.path.str = true
        · -- it is in the cache already, so it is watched
          rw [if_pos hin]
          obtain ⟨s, hs, hspath⟩ := pathnameInCache_iff.mp hin
          obtain ⟨d₁, hd₁, k₁, hk₁, rfl⟩ := (h.mirror s).mp hs
          have hwatched : w.watch d.ino = some k₁ := by
            rw [← h.tree.str_inj h.apart hd₁ hd hspath]
            exact hk₁
          refine h.toLoop hrest hsub ?_ hnoroot
          intro q' n' d' hd' hpend
          have htold := told_of_pending hstack hpend
          rw [hunread] at htold
          refine htold.tail (hother q' n' d' hd' ?_)
          rintro rfl
          rw [hd'.unwatched] at hwatched
          nomatch hwatched
        · rw [if_neg hin]
          refine h.goto (.walk [.visit d.path.str] (.event rest _)) w.queue hsub ?_ ?_ ?_
            (fun _ hr => nomatch hr) trivial nofun
          · intro f hf
            obtain rfl := List.mem_singleton.mp hf
            exact .visit hd
          · intro q' n' d' hd' hpend
            by_cases hdd : d' = d
            · rw [hdd]
              exact Or.inr (Or.inl List.mem_cons_self)
            · have htold := told_of_pending hstack hpend
              rw [hunread] at htold
              exact Or.inl (htold.tail (hother q' n' d' hd' hdd))
          · exact fun r _ _ _ _ hor => absurd hor (hnoroot r)

theorem shaped_of_watch {ev : Event} (hwd : ev.wd = k) (hign : ev.has IN_IGNORED = false) : Shaped ev := by
  refine ⟨fun hneg => ?_, fun htrue => ?_⟩
  · rw [hwd] at hneg
    omega
  · rw [hign] at htrue
    nomatch htrue

theorem shaped_ignored (k : Nat) : Shaped (ignored k) := by
  refine ⟨fun hneg => ?_, fun _ => rfl⟩
  have hk : (k : Int) = -1 := hneg
  omega

theorem shaped_appeared (moved : Bool) (cookie : Nat) (n : FileName) (k : Nat) : Shaped (appeared moved cookie n k) :=
  shaped_of_watch rfl (Event.has_of_mask (appeared_mask ..) (by cases moved <;> decide))

theorem Announced.shaped {ev : Event} (h : Announced w ev) : Shaped ev := by
  cases h with
  | ignored k => exact shaped_ignored k
  | @appeared q d n k moved cookie hq hd hpath hk => exact shaped_appeared moved cookie n k

/-- **Events are read.** -/
theorem Grow.read {j : Nat} (h : Grow roots w) (hstep : w.step (.read j) = some w') : Grow roots w' := by
  unfold World.step at hstep
  dsimp only at hstep
  split at hstep
  · obtain ⟨w₁, hw₁, rfl⟩ := Option.map_eq_some_iff.mp hstep
    obtain ⟨m', hm', rfl⟩ := Option.map_eq_some_iff.mp hw₁
    obtain ⟨hne, ⟨hpc, rfl⟩ | ⟨buf, numRead, armed, hpc, -⟩⟩ := step_read hm'
    · have hunread : w.unread = w.queue.take j ++ w.queue.drop j := by
        unfold World.unread
        rw [hpc, List.take_append_drop]
        rfl
      have hrest : Rest (w.queue.take j) (sizes (w.queue.take j)) := by
        refine ⟨Or.inl rfl, fun ev hev => (h.events ev ?_).shaped⟩
        rw [hunread]
        exact List.mem_append_left _ hev
      rw [toLoop_eq w.mon hrest true, if_neg hne]
      have hstack : w.mon.pc.stack = [] := by rw [hpc]; rfl
      refine h.goto (.loop (w.queue.take j) _ true) _ ?_ (fun _ hf => nomatch hf) ?_ ?_
        (fun _ hr => nomatch hr) trivial nofun
      · rw [hunread]
        exact fun _ hev => hev
      · intro q n d hd hpend
        have htold := told_of_pending hstack hpend
        rw [hunread] at htold
        exact Or.inl htold
      · rintro r - - - - (hor | hor)
        · rw [hstack] at hor
          nomatch hor
        · unfold World.toBuild at hor
          rw [hpc] at hor
          nomatch hor
    · have hgrows := h.pc
      rw [hpc] at hgrows
      nomatch hgrows
  · nomatch hstep

/-- **The walk comes to a subdirectory.** -/
theorem Grow.entry (h : Grow roots w) (hstep : w.step (.entry n) = some w') : Grow roots w' := by
  unfold World.step at hstep
  dsimp only at hstep
  split at hstep
  · rename_i path due stack ret hpc
    split at hstep
    · rename_i hn
      obtain ⟨m', hm', rfl⟩ := Option.map_eq_some_iff.mp hstep
      obtain ⟨path', due', stack', ret', hpc', rfl⟩ := step_entry hm'
      obtain ⟨hstk, rfl⟩ := Pc.walk.inj (hpc.symm.trans hpc')
      obtain ⟨hframe, rfl⟩ := List.cons.inj hstk
      obtain ⟨rfl, rfl⟩ := Frame.scan.inj hframe
      have hstack : w.mon.pc.stack = .scan path due :: stack := by rw [hpc]; rfl
      have hwalked := h.walked (.scan path due) (by rw [hstack]; exact List.mem_cons_self)
      obtain ⟨q, hq, rfl, hk, hdue⟩ := hwalked.of_scan
      obtain ⟨d, hd, hpath⟩ := hdue n hn
      have hstr : q.path.str.slash n.str = d.path.str := by rw [hpath, DirPath.str_child]
      refine h.gotoWalk hpc nofun ?_ ?_ ?_
      · intro f hf
        rcases List.mem_cons.mp hf with rfl | hf
        · rw [hstr]
          exact .visit hd
        · rcases List.mem_cons.mp hf with rfl | hf
          · exact .scan hq hk fun n' hn' => hdue n' (List.mem_of_mem_erase hn')
          · exact h.walked f (by rw [hstack]; exact List.mem_cons_of_mem _ hf)
      · rintro q' n' d' hd' (hvis | ⟨due', hscan, hn'⟩)
        · rcases List.mem_cons.mp hvis with heq | hmem
          · nomatch heq
          · exact Or.inl (List.mem_cons_of_mem _ (List.mem_cons_of_mem _ hmem))
        · rcases List.mem_cons.mp hscan with heq | hmem
          · -- this directory: the name that has come up is visited now
            obtain ⟨hqq, rfl⟩ := Frame.scan.inj heq
            by_cases hnn : n' = n
            · have hdd : d' = d := by
                refine h.tree.path_inj hd'.dir hd ?_
                rw [hd'.path, hpath, hnn, h.tree.str_inj h.apart hd'.parent hq hqq]
              rw [hdd, ← hstr]
              exact Or.inl List.mem_cons_self
            · refine Or.inr ⟨due'.erase n, ?_, (List.mem_erase_of_ne hnn).mpr hn'⟩
              rw [hqq]
              exact List.mem_cons_of_mem _ List.mem_cons_self
          · exact Or.inr ⟨due', List.mem_cons_of_mem _ (List.mem_cons_of_mem _ hmem), hn'⟩
      · intro r _ _ _ _ hr
        rcases List.mem_cons.mp hr with heq | hmem
        · nomatch heq
        · exact List.mem_cons_of_mem _ (List.mem_cons_of_mem _ hmem)
    · nomatch hstep
  · nomatch hstep

/-- **A directory has been read to its end.** -/
theorem Grow.endOfDir (h : Grow roots w) (hsound : Sound w.mon) (hstep : w.step .endOfDir = some w') :
    Grow roots w' := by
  unfold World.step at hstep
  dsimp only at hstep
  split at hstep
  · rename_i path stack ret hpc
    obtain ⟨m', hm', rfl⟩ := Option.map_eq_some_iff.mp hstep
    obtain ⟨path', due', stack', ret', hpc', rfl⟩ := step_endOfDir hm'
    obtain ⟨hstk, rfl⟩ := Pc.walk.inj (hpc.symm.trans hpc')
    obtain ⟨hframe, rfl⟩ := List.cons.inj hstk
    have hstack : w.mon.pc.stack = .scan path [] :: stack := by rw [hpc]; rfl
    -- nothing was due in this directory
    have hdue : ∀ q n d, Missing w q n d →
        (.visit d.path.str ∈ w.mon.pc.stack ∨ ∃ due, .scan q.path.str due ∈ w.mon.pc.stack ∧ n ∈ due) →
        (.visit d.path.str ∈ stack ∨ ∃ due, .scan q.path.str due ∈ stack ∧ n ∈ due) := by
      rw [hstack]
      rintro q n d - (hvis | ⟨due, hscan, hn⟩)
      · rcases List.mem_cons.mp hvis with heq | hmem
        · nomatch heq
        · exact Or.inl hmem
      · rcases List.mem_cons.mp hscan with heq | hmem
        · obtain ⟨-, rfl⟩ := Frame.scan.inj heq
          nomatch hn
        · exact Or.inr ⟨due, hmem, hn⟩
    have hvisit : ∀ r, .visit r ∈ w.mon.pc.stack → .visit r ∈ stack := by
      rw [hstack]
      intro r hr
      rcases List.mem_cons.mp hr with heq | hmem
      · nomatch heq
      · exact hmem
    unfold Monitor.toWalk
    by_cases hnil : stack = []
    · rw [if_pos hnil]
      subst hnil
      have hgrows := h.pc
      rw [hpc] at hgrows
      have htold : ∀ q n d, Missing w q n d → Pending w q n d.path.str → Told w w.unread q n := by
        rintro q n d hd (htold | hwalk)
        · exact htold
        · rcases hdue q n d hd hwalk with hvis | ⟨due, hscan, -⟩
          · nomatch hvis
          · nomatch hscan
      cases ret with
      | event rest numRead =>
        have hunread : w.unread = rest ++ w.queue := by
          unfold World.unread
          rw [hpc]
          rfl
        have hrest : Rest rest numRead := by
          have hpcs := hsound.pc
          unfold PcSound at hpcs
          rw [hpc] at hpcs
          exact hpcs
        rw [hunread] at htold
        refine h.toLoop hrest ?_ htold ?_
        · rw [hunread]
          exact fun _ hev => hev
        · rintro r (hor | hor)
          · nomatch hvisit r hor
          · unfold World.toBuild at hor
            rw [hpc] at hor
            nomatch hor
      | build rs =>
        have hunread : w.unread = w.queue := by
          unfold World.unread
          rw [hpc]
          rfl
        have hbuild : w.toBuild = rs := by
          unfold World.toBuild
          rw [hpc]
          rfl
        rw [hunread] at htold
        have hgrow := h.build (by rw [hpc]; rfl) htold fun r hr => nomatch hvisit r hr
        rw [hbuild] at hgrow
        exact hgrow
      | command => nomatch hgrows
    · rw [if_neg hnil]
      refine h.gotoWalk hpc hnil ?_ ?_ ?_
      · exact fun f hf => h.walked f (by rw [hstack]; exact List.mem_cons_of_mem _ hf)
      · rw [hstack] at hdue
        exact hdue
      · rw [hstack] at hvisit
        exact fun r _ _ _ _ => hvisit r
  · nomatch hstep

/-- **`reinitialize` begins.** -/
theorem Grow.reinit (h : Grow roots w) (hstep : w.step .init = some w') : Grow roots w' := by
  obtain ⟨w₁, hw₁, rfl⟩ := Option.map_eq_some_iff.mp hstep
  obtain ⟨m', hm', rfl⟩ := Option.map_eq_some_iff.mp hw₁
  obtain ⟨hpc, rfl⟩ := step_initialized hm'
  obtain ⟨hcache, hwatch, hqueue, hnext⟩ := h.init hpc
  have hbuild : w.toBuild = w.mon.rootDirPaths := by
    unfold World.toBuild
    rw [hpc]
  have hstack : w.mon.pc.stack = [] := by rw [hpc]; rfl
  have hgrow := h.build (by rw [hpc]; rfl) ?_ fun r hr => ?_
  · have hm : { w.mon with cache := [] } = w.mon := by
      rw [← hcache]
    have hfun : w.watch = fun _ => none := funext hwatch
    rw [hbuild] at hgrow
    rw [hm]
    have hw : { w with mon := w.mon.build w.mon.rootDirPaths } =
        (⟨w.mon.build w.mon.rootDirPaths, w.dirs, w.outside, fun _ => none, [], 1, w.cookie⟩ : World) := by
      rw [← hfun, ← hqueue, ← hnext]
    rw [hw] at hgrow
    exact hgrow
  · -- there is no watch yet
    rintro q n d - (⟨k, -, -, hk, -⟩ | hvis | ⟨due, hscan, -⟩)
    · rw [hwatch] at hk
      nomatch hk
    · rw [hstack] at hvis
      nomatch hvis
    · rw [hstack] at hscan
      nomatch hscan
  · rw [hstack] at hr
    nomatch hr

/-- The descriptors in the cache have been given out. -/
theorem findWatch_nextWd (h : Grow roots w) (hsound : Sound w.mon) : findWatch w.mon.cache w.nextWd = none := by
  refine findWatch_eq_none.mpr fun s hs heq => ?_
  rcases hsound.cache.free s hs with hwd | rfl
  · obtain ⟨d, -, k, hk, rfl⟩ := (h.mirror s).mp (mem_used.mpr ⟨hs, hwd⟩)
    have hlt := h.watches.lt _ _ hk
    have hkk : (k : Int) = w.nextWd := heq
    omega
  · have hneg : (-1 : Int) = w.nextWd := heq
    omega

/-- The next descriptor is not an old one. -/
theorem Watches.add (h : Watches w) (i : Nat) :
    Watches { w with watch := Function.update w.watch i (some w.nextWd), nextWd := w.nextWd + 1 } := by
  have hself : Function.update w.watch i (some w.nextWd) i = some w.nextWd := Function.update_self ..
  have hold : ∀ j k, j ≠ i → Function.update w.watch i (some w.nextWd) j = some k → w.watch j = some k := by
    intro j k hj hk
    rw [Function.update_of_ne hj] at hk
    exact hk
  have hnext : ∀ j, j ≠ i → Function.update w.watch i (some w.nextWd) j ≠ some w.nextWd :=
    fun j hj heq => Nat.lt_irrefl _ (h.lt j _ (hold j _ hj heq))
  constructor
  · intro j k hj
    by_cases hji : j = i
    · subst hji
      rw [← Option.some.inj (hself.symm.trans hj)]
      exact Nat.lt_succ_self _
    · exact Nat.lt_succ_of_lt (h.lt j k (hold j k hji hj))
  · intro j j' k hj hj'
    by_cases hji : j = i
    · subst hji
      obtain rfl := Option.some.inj (hself.symm.trans hj)
      by_contra hne
      exact hnext j' (Ne.symm hne) hj'
    · by_cases hji' : j' = i
      · subst hji'
        obtain rfl := Option.some.inj (hself.symm.trans hj')
        exact absurd hj (hnext j hji)
      · exact h.inj j j' k (hold j k hji hj) (hold j' k hji' hj')

section

variable {stack : List Frame} {ret : AfterWalk}

/-- Of what is due, only the directory at the top of the stack is to be visited now. -/
theorem Grow.due_below (h : Grow roots w) (hpc : w.mon.pc = .walk (.visit d.path.str :: stack) ret) (hd : d ∈ w.dirs)
    (hd' : Missing w q n d') (hne : d' ≠ d) (hwalk : .visit d'.path.str ∈ w.mon.pc.stack ∨
      ∃ due, .scan q.path.str due ∈ w.mon.pc.stack ∧ n ∈ due) :
    .visit d'.path.str ∈ stack ∨ ∃ due, .scan q.path.str due ∈ stack ∧ n ∈ due := by
  rw [hpc] at hwalk
  rcases hwalk with hvis | ⟨due, hscan, hn⟩
  · rcases List.mem_cons.mp hvis with heq | hmem
    · exact absurd (h.tree.str_inj h.apart hd'.dir hd (Frame.visit.inj heq)) hne
    · exact Or.inl hmem
  · rcases List.mem_cons.mp hscan with heq | hmem
    · nomatch heq
    · exact Or.inr ⟨due, hmem, hn⟩

theorem Grow.visit_below {r : CStr} (h : Grow roots w) (hpc : w.mon.pc = .walk (.visit d.path.str :: stack) ret)
    (hd : d ∈ w.dirs) (hd' : d' ∈ w.dirs) (hpath : d'.path = ⟨r, []⟩) (hne : d' ≠ d)
    (hr : .visit r ∈ w.mon.pc.stack) : .visit r ∈ stack := by
  rw [hpc] at hr
  rcases List.mem_cons.mp hr with heq | hmem
  · refine absurd (h.tree.str_inj h.apart hd' hd ?_) hne
    rw [hpath, DirPath.str_root]
    exact Frame.visit.inj heq
  · exact hmem

theorem Grow.walked_below {f : Frame} (h : Grow roots w) (hpc : w.mon.pc = .walk (.visit d.path.str :: stack) ret)
    (hf : f ∈ stack) : Walked w f := by
  refine h.walked f ?_
  rw [hpc]
  exact List.mem_cons_of_mem _ hf

/-- The directory is watched already: `nftw` goes on into it. -/
theorem Grow.watchedBefore (h : Grow roots w) (hpc : w.mon.pc = .walk (.visit d.path.str :: stack) ret)
    (hd : d ∈ w.dirs) (hk : w.watch d.ino = some k) :
    Grow roots (w.goto (.walk (.scan d.path.str (w.children d.path) :: stack) ret) w.queue) := by
  have hother : ∀ d' : Dir, w.watch d'.ino = none → d' ≠ d := by
    rintro d' hnone rfl
    rw [hk] at hnone
    nomatch hnone
  refine h.gotoWalk hpc nofun ?_ ?_ ?_
  · intro f hf
    rcases List.mem_cons.mp hf with rfl | hf
    · refine .scan hd ?_ fun n hn => mem_children.mp hn
      rw [hk]
      nofun
    · exact h.walked_below hpc hf
  · intro q n d' hd' hwalk
    have hwalk' : .visit d'.path.str ∈ w.mon.pc.stack ∨ ∃ due, .scan q.path.str due ∈ w.mon.pc.stack ∧ n ∈ due := by
      rw [hpc]
      exact hwalk
    rcases h.due_below hpc hd hd' (hother d' hd'.unwatched) hwalk' with hvis | ⟨due, hscan, hn⟩
    · exact Or.inl (List.mem_cons_of_mem _ hvis)
    · exact Or.inr ⟨due, List.mem_cons_of_mem _ hscan, hn⟩
  · intro r d' hd' hpath hnone hr
    refine List.mem_cons_of_mem _ (h.visit_below hpc hd hd' hpath (hother d' hnone) ?_)
    rw [hpc]
    exact hr

/-- The directory gets a watch and a slot. -/
theorem Grow.watchedNow (h : Grow roots w) (hpc : w.mon.pc = .walk (.visit d.path.str :: stack) ret)
    (hd : d ∈ w.dirs) (hk : w.watch d.ino = none) :
    Grow roots { w with
      mon := { w.mon with
        cache := addWatchToCache w.mon.cache w.nextWd d.path.str
        pc := .walk (.scan d.path.str (w.children d.path) :: stack) ret }
      watch := Function.update w.watch d.ino (some w.nextWd)
      nextWd := w.nextWd + 1 } := by
  have hself : Function.update w.watch d.ino (some w.nextWd) d.ino = some w.nextWd := Function.update_self ..
  have hother : ∀ d' ∈ w.dirs, d' ≠ d → Function.update w.watch d.ino (some w.nextWd) d'.ino = w.watch d'.ino :=
    fun d' hd' hne => Function.update_of_ne (fun heq => hne (h.tree.ino_inj hd' hd heq)) _ _
  have hgrown : ∀ i k, w.watch i = some k → Function.update w.watch d.ino (some w.nextWd) i = some k := by
    intro i k hi
    rw [Function.update_of_ne]
    · exact hi
    · rintro rfl
      rw [hk] at hi
      nomatch hi
  -- a directory that is still not watched is another one
  have hnot : ∀ d' : Dir, Function.update w.watch d.ino (some w.nextWd) d'.ino = none → d' ≠ d := by
    rintro d' hnone rfl
    exact absurd (hself.symm.trans hnone) nofun
  have hunread : w.unread = ret.buffer ++ w.queue := by
    unfold World.unread
    rw [hpc]
    rfl
  have hbuild : w.toBuild = ret.toBuild := by
    unfold World.toBuild
    rw [hpc]
  have hwatches := h.watches.add d.ino
  refine
    { toShape := ⟨h.apart, h.tree, ⟨hwatches.lt, hwatches.inj⟩, h.rootsNodup, h.rootsOld, h.never⟩
      mirror := ?_, events := ?_, walked := ?_, due := ?_, roots := ?_, built := ?_
      monitored := h.monitored, pc := ?_, init := nofun }
  · intro s
    show s ∈ used (addWatchToCache w.mon.cache w.nextWd d.path.str) ↔ _
    rw [(used_addWatchToCache (Int.natCast_nonneg _) d.path.str).mem_iff, List.mem_cons, h.mirror s]
    constructor
    · rintro (rfl | ⟨d', hd', k, hk', rfl⟩)
      · exact ⟨d, hd, w.nextWd, hself, rfl⟩
      · exact ⟨d', hd', k, hgrown _ _ hk', rfl⟩
    · rintro ⟨d', hd', k, hk', rfl⟩
      by_cases hdd : d' = d
      · subst hdd
        rw [← Option.some.inj (hself.symm.trans hk')]
        exact Or.inl rfl
      · exact Or.inr ⟨d', hd', k, (hother d' hd' hdd).symm.trans hk', rfl⟩
  · intro ev hev
    refine (h.events ev ?_).mono (fun _ hd => hd) hgrown
    rw [hunread]
    exact hev
  · intro f hf
    rcases List.mem_cons.mp hf with rfl | hf
    · refine .scan hd ?_ fun n hn => mem_children.mp hn
      show Function.update w.watch d.ino (some w.nextWd) d.ino ≠ none
      rw [hself]
      nofun
    · exact (h.walked_below hpc hf).mono (fun _ hd => hd) hgrown
  · intro q n d' hd' hq
    have hne := hnot d' hd'.unwatched
    have hmiss : Missing w q n d' :=
      ⟨hd'.parent, hd'.dir, hd'.path, (hother d' hd'.dir hne).symm.trans hd'.unwatched⟩
    by_cases hqd : q = d
    · -- its own subdirectories come up in the scan that begins
      subst hqd
      exact Or.inr (Or.inr ⟨_, List.mem_cons_self, mem_children.mpr ⟨d', hd'.dir, hd'.path⟩⟩)
    · have hq' : w.watch q.ino ≠ none := by
        rw [← hother q hd'.parent hqd]
        exact hq
      rcases h.due q n d' hmiss hq' with ⟨k, moved, cookie, hk', hev⟩ | hwalk
      · refine Or.inl ⟨k, moved, cookie, hgrown _ _ hk', ?_⟩
        rw [hunread] at hev
        exact hev
      · rcases h.due_below hpc hd hmiss hne hwalk with hvis | ⟨due, hscan, hn⟩
        · exact Or.inr (Or.inl (List.mem_cons_of_mem _ hvis))
        · exact Or.inr (Or.inr ⟨due, List.mem_cons_of_mem _ hscan, hn⟩)
  · intro r hr
    obtain ⟨d', hd', hpath, hor⟩ := h.roots r hr
    refine ⟨d', hd', hpath, fun hnone => ?_⟩
    have hne := hnot d' hnone
    rcases hor ((hother d' hd' hne).symm.trans hnone) with hor | hor
    · exact Or.inl (List.mem_cons_of_mem _ (h.visit_below hpc hd hd' hpath hne hor))
    · rw [hbuild] at hor
      exact Or.inr hor
  · intro r hr
    refine h.built r ?_
    rw [hbuild]
    exact hr
  · have hgrows := h.pc
    rw [hpc] at hgrows
    cases ret with
    | event rest numRead => trivial
    | build rs => trivial
    | command => nomatch hgrows

end

/-- What `inotify_add_watch` answered is noted by `traverseTree`. -/
theorem watched_inv {path : CStr} {stack : List Frame} {ret : AfterWalk} {wd : Int} {due : List FileName}
    {m m' : Monitor} (hpc : m.pc = .walk (.visit path :: stack) ret) (hm' : m.step (.watched wd due) = some m') :
    m' = { m.traverseTree path wd with pc := .walk (.scan path due :: stack) ret } := by
  obtain ⟨path', stack', ret', hpc', rfl⟩ := step_watched hm'
  obtain ⟨hstk, rfl⟩ := Pc.walk.inj (hpc.symm.trans hpc')
  obtain ⟨hframe, rfl⟩ := List.cons.inj hstk
  obtain rfl := Frame.visit.inj hframe
  rfl

/-- **A directory is watched**, if it was not. -/
theorem Grow.addWatch (h : Grow roots w) (hsound : Sound w.mon) (hstep : w.step .addWatch = some w') :
    Grow roots w' := by
  unfold World.step at hstep
  dsimp only at hstep
  split at hstep
  · rename_i path stack ret hpc
    have hvisit : Walked w (.visit path) := by
      refine h.walked _ ?_
      rw [hpc]
      exact List.mem_cons_self
    obtain ⟨d, hd, rfl⟩ := hvisit.of_visit
    unfold World.addWatch at hstep
    rw [lookup_eq h.tree h.apart hd] at hstep
    dsimp only at hstep
    cases hk : w.watch d.ino with
    | some k =>
      rw [hk] at hstep
      obtain ⟨m', hm', rfl⟩ := Option.map_eq_some_iff.mp hstep
      rw [watched_inv hpc hm']
      have hslot : (⟨k, d.path.str⟩ : Watch) ∈ used w.mon.cache := (h.mirror _).mpr ⟨d, hd, k, hk, rfl⟩
      obtain ⟨slot, hfound, -⟩ := findWatch_of_mem hsound.cache hslot
      have hsame : w.mon.traverseTree d.path.str k = w.mon := by
        refine if_pos ?_
        rw [show findWatch w.mon.cache k = some slot from hfound]
        rfl
      rw [hsame]
      exact h.watchedBefore hpc hd hk
    | none =>
      rw [hk] at hstep
      obtain ⟨w₁, hw₁, rfl⟩ := Option.map_eq_some_iff.mp hstep
      obtain ⟨m', hm', rfl⟩ := Option.map_eq_some_iff.mp hw₁
      rw [watched_inv hpc hm']
      have hnew : w.mon.traverseTree d.path.str w.nextWd =
          { w.mon with cache := addWatchToCache w.mon.cache w.nextWd d.path.str } := by
        refine if_neg ?_
        rw [findWatch_nextWd h hsound]
        nofun
      rw [hnew]
      exact h.watchedNow hpc hd hk
  · nomatch hstep

/-! ## A directory appears -/

/-- What a scan that finds a new name changes: the frames, one by one. -/
theorem sees_cases (m : Monitor) (path : CStr) (n : FileName) (seen : Bool) :
    ∃ pc : Pc, (if seen then m.sees path n else m) = { m with pc := pc } ∧ pc.buffer = m.pc.buffer ∧
      (pc.stack = m.pc.stack ∨ pc.stack = m.pc.stack.map (Frame.sees path n)) ∧
      (pc = .init ↔ m.pc = .init) ∧ (m.pc.Grows → pc.Grows) ∧
      ∀ w : World, w.mon = m → (w.goto pc w.queue).toBuild = w.toBuild := by
  cases seen with
  | false => exact ⟨m.pc, rfl, rfl, Or.inl rfl, Iff.rfl, id, fun w hw => by rw [← hw]; rfl⟩
  | true =>
    rw [if_pos rfl]
    unfold Monitor.sees
    split
    · rename_i stack ret hpc
      refine ⟨.walk (stack.map (Frame.sees path n)) ret, rfl, ?_, ?_, ?_, ?_, ?_⟩
      · rw [hpc]
        rfl
      · rw [hpc]
        exact Or.inr rfl
      · rw [hpc]
        exact ⟨nofun, nofun⟩
      · rw [hpc]
        cases stack with
        | nil => exact fun h => absurd h (by cases ret <;> exact id)
        | cons f fs => cases ret <;> exact id
      · intro w hw
        unfold World.toBuild
        rw [hw, hpc]
        rfl
    · exact ⟨m.pc, rfl, rfl, Or.inl rfl, Iff.rfl, id, fun w hw => by rw [← hw]; rfl⟩

theorem visit_mem_sees {stack : List Frame} {path p : CStr} :
    .visit p ∈ stack.map (Frame.sees path n) ↔ .visit p ∈ stack := by
  rw [List.mem_map]
  constructor
  · rintro ⟨f, hf, heq⟩
    cases f with
    | visit p' => exact heq ▸ hf
    | scan p' due =>
      by_cases hp : p' = path
      · rw [Frame.sees, if_pos hp] at heq
        nomatch heq
      · rw [Frame.sees, if_neg hp] at heq
        nomatch heq
  · exact fun h => ⟨.visit p, h, rfl⟩

/-- What was due stays due. -/
theorem scan_mem_sees {stack : List Frame} {p : CStr} {due : List FileName} (path : CStr) (h : .scan p due ∈ stack)
    (hn : n' ∈ due) : ∃ due', .scan p due' ∈ stack.map (Frame.sees path n) ∧ n' ∈ due' := by
  have hmem := List.mem_map_of_mem (f := Frame.sees path n) h
  unfold Frame.sees at hmem
  dsimp only at hmem
  split at hmem
  · exact ⟨_, hmem, List.mem_append_left _ hn⟩
  · exact ⟨_, hmem, hn⟩

/-- **A directory appears**, with all that is in it. -/
theorem Grow.attach {new : List Dir} {moved seen : Bool} (h : Grow roots w)
    (hG : Guard roots w (.attach q n new moved seen)) : Grow roots (w.attach q n new moved seen) := by
  obtain ⟨-, hq, htop, hbelow, hfresh, -, htree⟩ := hG
  obtain ⟨t, ht, htpath⟩ := List.mem_map.mp htop
  obtain ⟨pc, hmon, hbuffer, hstack, hinit, hgrows, hbuild⟩ := sees_cases w.mon q.path.str n seen
  have hw : w.attach q n new moved seen = ⟨{ w.mon with pc := pc }, w.dirs ++ new, w.outside, w.watch,
      w.queue ++ w.report q.ino (appeared moved w.cookie n), w.nextWd, w.cookie + 1⟩ := by
    unfold World.attach
    rw [hmon]
  rw [hw]
  have hold : ∀ d ∈ w.dirs, d ∈ w.dirs ++ new := fun d hd => List.mem_append_left _ hd
  have hunread : ∀ ev, ev ∈ pc.buffer ++ (w.queue ++ w.report q.ino (appeared moved w.cookie n)) ↔
      ev ∈ w.unread ∨ ev ∈ w.report q.ino (appeared moved w.cookie n) := by
    intro ev
    rw [← List.append_assoc, List.mem_append, hbuffer]
    rfl
  -- a watched directory was there before
  have hwas : ∀ d ∈ w.dirs ++ new, w.watch d.ino ≠ none → d ∈ w.dirs := by
    intro d hd hk
    rcases List.mem_append.mp hd with hd | hd
    · exact hd
    · exact absurd (hfresh d hd) hk
  refine
    { toShape := ⟨h.apart, htree, ⟨h.watches.lt, h.watches.inj⟩, h.rootsNodup, h.rootsOld, h.never⟩
      mirror := ?_, events := ?_, walked := ?_, due := ?_, roots := ?_, built := ?_, monitored := ?_
      pc := hgrows h.pc, init := ?_ }
  · intro s
    refine (h.mirror s).trans ?_
    constructor
    · rintro ⟨d, hd, hs⟩
      exact ⟨d, hold d hd, hs⟩
    · rintro ⟨d, hd, k, hk, hs⟩
      refine ⟨d, hwas d hd ?_, k, hk, hs⟩
      rw [show w.watch d.ino = some k from hk]
      nofun
  · intro ev hev
    rcases (hunread ev).mp hev with hev | hev
    · exact (h.events ev hev).mono hold fun _ _ hk => hk
    · obtain ⟨k, hk, rfl⟩ := List.mem_map.mp hev
      exact .appeared moved w.cookie (hold q hq) (List.mem_append_right _ ht) htpath (Option.mem_toList.mp hk)
  · intro f hf
    have hmono : ∀ f, Walked w f → Walked ⟨{ w.mon with pc := pc }, w.dirs ++ new, w.outside, w.watch,
        w.queue ++ w.report q.ino (appeared moved w.cookie n), w.nextWd, w.cookie + 1⟩ f :=
      fun f hf => hf.mono hold fun _ _ hk => hk
    rcases hstack with hstack | hstack
    · exact hmono f (h.walked f (hstack ▸ hf))
    · have hf' : f ∈ pc.stack := hf
      rw [hstack] at hf'
      obtain ⟨f, hmem, rfl⟩ := List.mem_map.mp hf'
      have hwalked := h.walked f hmem
      cases f with
      | visit p => exact hmono _ hwalked
      | scan p due =>
        unfold Frame.sees
        dsimp only
        split
        · rename_i heq
          obtain ⟨q', hq', rfl, hk, hdue⟩ := hwalked.of_scan
          refine .scan (hold q' hq') hk fun n' hn' => ?_
          rcases List.mem_append.mp hn' with hn' | hn'
          · obtain ⟨d, hd, hpath⟩ := hdue n' hn'
            exact ⟨d, hold d hd, hpath⟩
          · rw [List.mem_singleton.mp hn', h.tree.str_inj h.apart hq' hq heq]
            exact ⟨t, List.mem_append_right _ ht, htpath⟩
        · exact hmono _ hwalked
  · intro q' n' d hd hk
    have hq' : q' ∈ w.dirs := hwas q' hd.parent hk
    rcases List.mem_append.mp hd.dir with hdir | hdir
    · -- it was missing before
      rcases h.due q' n' d ⟨hq', hdir, hd.path, hd.unwatched⟩ hk with
        ⟨k, moved', cookie, hk', hev⟩ | hvis | ⟨due, hscan, hn⟩
      · exact Or.inl ⟨k, moved', cookie, hk', (hunread _).mpr (Or.inl hev)⟩
      · refine Or.inr (Or.inl ?_)
        rcases hstack with hstack | hstack
        · exact hstack.symm ▸ hvis
        · exact hstack.symm ▸ visit_mem_sees.mpr hvis
      · refine Or.inr (Or.inr ?_)
        rcases hstack with hstack | hstack
        · exact ⟨due, hstack.symm ▸ hscan, hn⟩
        · obtain ⟨due', hscan', hn'⟩ := scan_mem_sees (n := n) q.path.str hscan hn
          exact ⟨due', hstack.symm ▸ hscan', hn'⟩
    · -- of the new ones only the topmost is in a watched directory
      have habove := hbelow d hdir
      rw [hd.path] at habove
      rcases DirPath.above_child_iff.mp habove with heq | habove
      · obtain ⟨hqq, rfl⟩ := DirPath.child_inj heq
        obtain ⟨k, hk'⟩ := Option.ne_none_iff_exists'.mp hk
        refine Or.inl ⟨k, moved, w.cookie, hk', (hunread _).mpr (Or.inr ?_)⟩
        refine List.mem_map_of_mem (Option.mem_toList.mpr ?_)
        rw [h.tree.path_inj hq hq' hqq]
        exact hk'
      · have hin := h.tree.above_mem _ q' hq' rfl habove
        have hnodup := htree.paths
        rw [List.map_append] at hnodup
        exact absurd htop (List.disjoint_of_nodup_append hnodup hin)
  · intro r hr
    obtain ⟨d, hd, hpath, hor⟩ := h.roots r hr
    refine ⟨d, hold d hd, hpath, fun hnone => ?_⟩
    rcases hor hnone with hvis | hmem
    · refine Or.inl ?_
      rcases hstack with hstack | hstack
      · exact hstack.symm ▸ hvis
      · exact hstack.symm ▸ visit_mem_sees.mpr hvis
    · refine Or.inr ?_
      have hsame := hbuild w rfl
      exact hsame.symm ▸ hmem
  · intro r hr
    refine h.built r ?_
    have hsame := hbuild w rfl
    exact hsame ▸ hr
  · intro d hd
    rcases List.mem_append.mp hd with hd | hd
    · exact h.monitored d hd
    · have hroot : q.path.root = d.path.root := (hbelow d hd).1
      rw [← hroot]
      exact h.monitored q hq
  · intro hpc
    obtain ⟨hcache, hwatch, hqueue, hnext⟩ := h.init (hinit.mp hpc)
    refine ⟨hcache, hwatch, ?_, hnext⟩
    show w.queue ++ w.report q.ino _ = []
    unfold World.report
    rw [hqueue, hwatch]
    rfl

end

end LinuxInterface.InotifyDtree
