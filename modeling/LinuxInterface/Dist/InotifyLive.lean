/-
  inotify/inotify_dtree.c (tlpi-dist): left alone, the monitor catches up.

  1. **What there is to do** — `World.cost` prices a directory that `nftw` will visit by its depth, an
     event by the walk it may start, and a watch that `zapSubtree` will remove by the event this will
     queue.

  2. **Every call costs** — each step of the monitor makes the price smaller (`cost_step`), also where it
     processes an `IN_MOVED_FROM` twice.

  3. **A call is always possible** — until everything has been processed (`progress`), unless the alarm
     that is to interrupt the second read comes before the program has got there (`Blocked`).  So the
     monitor comes to an end by itself, and lists the directories that there are then:
     `monitor_drains`.
-/
import LinuxInterface.Dist.InotifyRuns

namespace LinuxInterface.InotifyDtree

open LinuxInterface

/-! ## What there is to do -/

/-- How deep a path is, by its slashes. -/
def slashes (path : CStr) : Nat := path.bytes.count SLASH

/-- What the visit of a directory at this depth may cost, among `size` directories. -/
def visitCost (size depth : Nat) : Nat := Nat.pow (2 * (size + 1)) (PATH_MAX - depth)

/-- A directory to visit, or the entries still to come of one that is being read: `opendir` for each
    and the end of the directory. -/
def Frame.cost (size : Nat) : Frame → Nat
  | .visit path => visitCost size (slashes path)
  | .scan path due => due.length * (visitCost size (slashes path + 1) + 1) + 1

/-- All that a walk of `nftw` still has before it. -/
def stackCost (size : Nat) : List Frame → Nat
  | [] => 0
  | f :: stack => f.cost size + stackCost size stack

/-- What an event may cost: the walk of a whole tree. -/
def eventCost (size : Nat) : Nat := visitCost size 0 + 5

/-- What is left to do behind the walk: the rest of the buffer, or the other roots. -/
def AfterWalk.cost (size : Nat) : AfterWalk → Nat
  | .event rest _ => rest.length * eventCost size
  | .build roots => roots.length * (visitCost size 0 + 1)
  | .command => 0

/-- What the monitor has begun and not finished. -/
def Monitor.cost (size : Nat) (m : Monitor) : Nat :=
  match m.pc with
  | .init => m.rootDirPaths.length * (visitCost size 0 + 1) + 4
  | .select | .exited | .undefined => 0
  | .loop buf _ firstTry => buf.length * eventCost size + if firstTry then 2 else 0
  | .more buf _ armed => buf.length * eventCost size + if armed then 1 else 0
  | .walk stack ret => stackCost size stack + ret.cost size + 3
  | .zap _ _ ret => ret.buffer.length * eventCost size + 3

/-- The events after which `zapSubtree` may be called. -/
def Event.leaves (ev : Event) : Bool := ev.has (IN_MOVED_FROM ||| IN_MOVE_SELF)

/-- How many watches `zapSubtree` may still remove, and one more if it has not been called. -/
def World.toZap (w : World) : Nat :=
  match w.mon.pc with
  | .zap _ _ _ => (used w.mon.cache).length
  | .exited => 0
  | _ => if w.unread.any Event.leaves then (used w.mon.cache).length + 1 else 0

/-- The price of everything: watches to remove, the work of the monitor, and the events that are still
    with the kernel, each of which has yet to be read. -/
def World.cost (w : World) : Nat :=
  w.toZap * (eventCost w.dirs.length + 4) + w.mon.cost w.dirs.length +
    w.queue.length * (eventCost w.dirs.length + 3)

section

variable {roots : List CStr} {w w' : World} {d : Dir} {size : Nat} {m : Monitor} {rest : List Event}
  {numRead : Int} {firstTry : Bool} {path : CStr}

/-- An entry of a directory is one deeper. -/
theorem slashes_slash (path : CStr) (n : FileName) : slashes (path.slash n.str) = slashes path + 1 := by
  have hname : n.bytes.count SLASH = 0 := List.count_eq_zero.mpr n.valid.2.1
  show (path.bytes ++ SLASH :: n.bytes).count SLASH = _
  rw [List.count_append, List.count_cons_self, hname]
  rfl

/-- No directory is deeper than a path can be long, so that the price of a visit is never that of depth
    `PATH_MAX`. -/
theorem Tree.slashes_lt {dirs : List Dir} (h : Tree roots dirs) (hd : d ∈ dirs) : slashes d.path.str < PATH_MAX :=
  Nat.lt_of_le_of_lt List.count_le_length (h.short d hd)

/-- Nothing costs more than the visit of a root. -/
theorem visitCost_le (size depth : Nat) : visitCost size depth ≤ visitCost size 0 :=
  Nat.pow_le_pow_right (by omega) (Nat.sub_le ..)

/-- A visit pays for the scan, with all that is in the directory. -/
theorem visitCost_lt {c depth : Nat} (hc : c ≤ size) (hdepth : depth < PATH_MAX) :
    c * (visitCost size (depth + 1) + 1) + 1 < visitCost size depth := by
  have hsub : PATH_MAX - depth = PATH_MAX - (depth + 1) + 1 := by omega
  have hpow : visitCost size depth = visitCost size (depth + 1) * (2 * (size + 1)) := by
    unfold visitCost
    rw [hsub]
    rfl
  have hpos : 1 ≤ visitCost size (depth + 1) := Nat.pow_pos (by omega)
  rw [hpow]
  generalize visitCost size (depth + 1) = v at hpos
  calc c * (v + 1) + 1 ≤ size * (v + v) + 1 :=
        Nat.add_le_add_right (Nat.mul_le_mul hc (Nat.add_le_add_left hpos v)) 1
    _ < size * (v + v) + (v + v) := by omega
    _ = v * (2 * (size + 1)) := by rw [← Nat.succ_mul, ← Nat.two_mul, Nat.mul_left_comm, Nat.mul_comm v, Nat.mul_assoc]

/-! ### What the functions of the program leave to do -/

/-- Going on with the buffer brings no event in. -/
theorem buffer_toLoop {ev : Event} (hev : ev ∈ (m.toLoop rest numRead firstTry).pc.buffer) : ev ∈ rest := by
  have hev : ev ∈ (if 0 < numRead then Pc.loop rest numRead firstTry else .select).buffer := hev
  split at hev
  · exact hev
  · nomatch hev

/-- Back at the loop only the buffer is left; the first try of an `IN_MOVED_FROM` keeps the second read
    open. -/
theorem cost_toLoop (size : Nat) (m : Monitor) (rest : List Event) (numRead : Int) (firstTry : Bool) :
    (m.toLoop rest numRead firstTry).cost size ≤ rest.length * eventCost size + if firstTry then 2 else 0 := by
  unfold Monitor.toLoop
  split
  · exact Nat.le_refl _
  · exact Nat.zero_le _

/-- The roots that are null are passed over. -/
theorem cost_build (size : Nat) (m : Monitor) (rs : List (Option CStr)) :
    (m.build rs).cost size ≤ rs.length * (visitCost size 0 + 1) + 2 := by
  induction rs with
  | nil => exact Nat.zero_le _
  | cons r rs ih =>
    rw [List.length_cons, Nat.succ_mul]
    cases r with
    | none =>
      show (m.build rs).cost size ≤ _
      omega
    | some root =>
      have hvisit := visitCost_le size (slashes root)
      show visitCost size (slashes root) + 0 + rs.length * (visitCost size 0 + 1) + 3 ≤ _
      omega

/-- A walk that has nothing on its stack ends at once. -/
theorem cost_toWalk (size : Nat) (m : Monitor) (stack : List Frame) (ret : AfterWalk) :
    (m.toWalk stack ret).cost size ≤ stackCost size stack + ret.cost size + 3 := by
  unfold Monitor.toWalk
  split
  · cases ret with
    | event rest numRead =>
      refine Nat.le_trans (cost_toLoop size m rest numRead true) ?_
      show rest.length * eventCost size + 2 ≤ stackCost size stack + rest.length * eventCost size + 3
      omega
    | build rs =>
      refine Nat.le_trans (cost_build size m rs) ?_
      show _ ≤ stackCost size stack + rs.length * (visitCost size 0 + 1) + 3
      omega
    | command => exact Nat.zero_le _
  · exact Nat.le_refl _

/-- `zapSubtree` costs what is behind it: the watches it removes are priced in `toZap`. -/
theorem cost_zapSubtree (size : Nat) (m : Monitor) (path : CStr) (j : Nat) (rest : List Event) (numRead : Int) :
    (m.zapSubtree path j (.event rest numRead)).cost size ≤ rest.length * eventCost size + 3 := by
  unfold Monitor.zapSubtree
  split
  · exact Nat.le_refl _
  · refine Nat.le_trans (cost_toLoop size m rest numRead true) ?_
    rw [if_pos rfl]
    omega

theorem zapSubtree_cache (m : Monitor) (path : CStr) (j : Nat) (rest : List Event) (numRead : Int) :
    (m.zapSubtree path j (.event rest numRead)).cache = m.cache := by
  unfold Monitor.zapSubtree
  split
  · rfl
  · rfl

/-- Emptying a slot leaves no more of them in use. -/
theorem used_mark_le (C : Cache) (slot : Nat) : (used (markCacheSlotEmpty C slot)).length ≤ (used C).length := by
  cases hget : C[slot]? with
  | none =>
    have hsame : markCacheSlotEmpty C slot = C := List.set_eq_of_length_le (List.getElem?_eq_none_iff.mp hget)
    exact Nat.le_of_eq (by rw [hsame])
  | some s =>
    by_cases hwd : 0 ≤ s.wd
    · have hlen := (used_markCacheSlotEmpty hget hwd).length_eq
      rw [List.length_cons] at hlen
      omega
    · have hC : used C = used (C.take slot) ++ used (C.drop (slot + 1)) := by
        conv_lhs => rw [eq_around hget]
        rw [used_append, used_cons_of_neg hwd]
      have hmark : used (markCacheSlotEmpty C slot) = used (C.take slot) ++ used (C.drop (slot + 1)) := by
        unfold markCacheSlotEmpty
        rw [set_around hget, used_append, used_cons_of_neg (by decide)]
      exact Nat.le_of_eq (by rw [hC, hmark])

/-! ### Processing an event -/

/-- The event has been taken from the buffer, and what it asked for is on its way. -/
structure Processed (size : Nat) (ev : Event) (rest : List Event) (C : Cache) (m' : Monitor) : Prop where
  cost : m'.cost size ≤ rest.length * eventCost size + visitCost size 0 + 3
  buffer : ∀ e ∈ m'.pc.buffer, e ∈ rest
  used : (used m'.cache).length ≤ (used C).length
  zap : ∀ path slot ret, m'.pc = .zap path slot ret → ev.leaves = true

variable {ev : Event} {C : Cache} {rest' : List Event}

theorem toLoop_pc_ne_zap (m : Monitor) (slot : Nat) (ret : AfterZap) :
    (m.toLoop rest numRead firstTry).pc ≠ .zap path slot ret := by
  show (if 0 < numRead then Pc.loop rest numRead firstTry else .select) ≠ _
  split
  · nofun
  · nofun

/-- The event has been processed and the buffer goes on. -/
theorem Processed.toLoop (hsub : ∀ e ∈ rest, e ∈ rest') (hlen : rest.length ≤ rest'.length)
    (hused : (InotifyDtree.used m.cache).length ≤ (InotifyDtree.used C).length) :
    Processed size ev rest' C (m.toLoop rest numRead true) where
  cost := by
    have hmul := Nat.mul_le_mul_right (eventCost size) hlen
    refine Nat.le_trans (cost_toLoop size m rest numRead true) ?_
    rw [if_pos rfl]
    omega
  buffer := fun e he => hsub e (buffer_toLoop he)
  used := hused
  zap := fun path slot ret heq => absurd heq (toLoop_pc_ne_zap m slot ret)

/-- The monitor has exited over the event. -/
theorem Processed.exited (hused : (InotifyDtree.used m.cache).length ≤ (InotifyDtree.used C).length)
    (hpc : m.pc = .exited) : Processed size ev rest C m where
  cost := by
    unfold Monitor.cost
    rw [hpc]
    exact Nat.zero_le _
  buffer := by
    rw [hpc]
    exact fun e he => nomatch he
  used := hused
  zap := by
    rw [hpc]
    nofun

/-- `zapSubtree` is only called on events that announce a directory that leaves. -/
theorem Processed.zapSubtree {j : Nat} (hev : ev.leaves = true) (hcache : m.cache = C) :
    Processed size ev rest C (m.zapSubtree path j (.event rest numRead)) where
  cost := by
    have hle := cost_zapSubtree size m path j rest numRead
    omega
  buffer := by
    unfold Monitor.zapSubtree
    split
    · exact fun e he => he
    · exact fun e he => buffer_toLoop he
  used := Nat.le_of_eq (by rw [zapSubtree_cache, hcache])
  zap := fun _ _ _ _ => hev

/-- What `processNextInotifyEvent` does: the event has been processed, or will be processed again after
    another read; or the cache is to be built again, or a slot was used that was not looked up. -/
def Outcome (size : Nat) (ev : Event) (rest : List Event) (numRead : Int) (firstTry : Bool) (m m' : Monitor) : Prop :=
  Processed size ev rest m.cache m' ∨ m'.pc = .undefined ∨ m'.reinitCnt = m.reinitCnt + 1 ∨
    (firstTry = true ∧ m' = { m with pc := .more (ev :: rest) numRead true })

/-- A branch that uses the slot of the event, whichever slot that is. -/
theorem Outcome.withSlot {k : Nat → CStr → Monitor}
    (h : ∀ slot path, Outcome size ev rest numRead firstTry m (k slot path)) :
    Outcome size ev rest numRead firstTry m (m.withSlot ev k) := by
  unfold Monitor.withSlot
  split
  · split
    · exact h _ _
    · exact Or.inr (Or.inl rfl)
  · exact Or.inr (Or.inl rfl)

/-- A branch that goes on behind `zapRootDirPath`, if the program does not exit with the last root. -/
theorem Outcome.zapRootDirPath {k : Monitor → Monitor}
    (h : ∀ m', m'.cache = m.cache → Processed size ev rest m.cache (k m')) (path : CStr) :
    Outcome size ev rest numRead firstTry m (m.zapRootDirPath path k) := by
  unfold Monitor.zapRootDirPath
  split
  · exact Or.inl (.exited (Nat.le_refl _) rfl)
  · dsimp only
    split
    · exact Or.inl (.exited (Nat.le_refl _) rfl)
    · exact Or.inl (h _ rfl)

/-- One of the flags is set, among others. -/
theorem leaves_of_flags (flags : BitVec 32)
    (h : (ev.mask &&& flags) &&& (IN_MOVED_FROM ||| IN_MOVE_SELF) ≠ 0) : ev.leaves = true := by
  refine decide_eq_true fun hzero => h ?_
  rw [BitVec.and_assoc, BitVec.and_comm flags, ← BitVec.and_assoc, hzero]
  exact BitVec.zero_and

/-- An `IN_MOVED_FROM`, alone in the buffer or not: tried again after a second read, taken as a rename,
    or as a move to somewhere else. -/
theorem Outcome.movedFrom (hev : ev.leaves = true) :
    Outcome size ev rest numRead firstTry m (m.movedFrom ev rest numRead firstTry path) := by
  unfold Monitor.movedFrom
  dsimp only
  split
  · split
    · exact Or.inr (Or.inl rfl)
    · rename_i next rest'
      split
      · split
        · exact Or.inr (Or.inr (Or.inl rfl))
        · split
          · exact Or.inr (Or.inl rfl)
          · refine Or.inl (.toLoop (fun e he => List.mem_cons_of_mem _ he) (Nat.le_succ _) ?_)
            exact Nat.le_of_eq (by rw [used_rewriteCachedPaths, List.length_map])
      · exact Or.inl (.zapSubtree hev rfl)
  · split
    · exact Or.inl (.zapSubtree hev rfl)
    · rename_i hfirst
      exact Or.inr (Or.inr (Or.inr ⟨Bool.of_not_eq_false hfirst, rfl⟩))

/-- **Every event**, by the branch of `processNextInotifyEvent` that takes it. -/
theorem process_outcome (size : Nat) (m : Monitor) (ev : Event) (rest : List Event) (numRead : Int) (firstTry : Bool) :
    Outcome size ev rest numRead firstTry m (m.processNextInotifyEvent ev rest numRead firstTry) := by
  have hloop : ∀ m' : Monitor, (used m'.cache).length ≤ (used m.cache).length →
      Processed size ev rest m.cache (m'.toLoop rest (numRead - ev.size) true) :=
    fun m' hused => .toLoop (fun _ he => he) (Nat.le_refl _) hused
  unfold Monitor.processNextInotifyEvent
  split
  · exact Or.inr (Or.inr (Or.inl rfl))
  split
  · -- a directory has appeared
    refine .withSlot fun slot path => ?_
    dsimp only
    split
    · exact Or.inl (hloop m (Nat.le_refl _))
    · refine Or.inl ⟨?_, fun _ he => he, Nat.le_refl _, nofun⟩
      have hvisit := visitCost_le size (slashes (snprintf (PATH_MAX + NAME_MAX) (path.slash ev.name)))
      show visitCost size (slashes _) + 0 + rest.length * eventCost size + 3 ≤ _
      omega
  split
  · -- a watched directory has been deleted
    refine .withSlot fun slot path => ?_
    dsimp only
    split
    · refine .zapRootDirPath (fun m' hcache => hloop _ ?_) path
      show (used (markCacheSlotEmpty m'.cache slot)).length ≤ _
      rw [hcache]
      exact used_mark_le m.cache slot
    · exact Or.inl (hloop _ (used_mark_le m.cache slot))
  split
  · rename_i hmask
    have hev : ev.leaves = true := by
      refine leaves_of_flags (IN_MOVED_FROM ||| IN_ISDIR) ?_
      rw [hmask]
      decide
    exact .withSlot fun slot path => .movedFrom hev
  split
  · exact Or.inr (Or.inr (Or.inl rfl))
  split
  · exact .withSlot fun slot path => Or.inl (hloop _ (used_mark_le m.cache slot))
  split
  · rename_i hmove
    have hev : ev.leaves = true := by
      refine leaves_of_flags IN_MOVE_SELF ?_
      rw [BitVec.and_assoc, show IN_MOVE_SELF &&& (IN_MOVED_FROM ||| IN_MOVE_SELF) = IN_MOVE_SELF by decide]
      exact of_decide_eq_true hmove
    refine .withSlot fun slot path => ?_
    split
    · exact .zapRootDirPath (fun m' hcache => .zapSubtree hev hcache) path
    · exact Or.inl (hloop m (Nat.le_refl _))
  · exact Or.inl (hloop m (Nat.le_refl _))

/-! ## Every call costs -/

/-- The calls of the monitor itself are always allowed. -/
theorem Act.Own.guard {a : Act} (h : a.Own) : Guard roots w a := by
  cases a <;> first | exact h.elim | exact True.intro

theorem not_leaves_ignored (k : Nat) : (ignored k).leaves = false :=
  Event.has_of_mask (show _ = IN_IGNORED from rfl) (by decide)

/-- A directory that appears does not leave. -/
theorem Announced.not_leaves (h : Announced w ev) : ev.leaves = false := by
  cases h with
  | ignored k => exact not_leaves_ignored k
  | appeared moved cookie => exact Event.has_of_mask (appeared_mask ..) (by cases moved <;> decide)

/-- While the trees grow, no watch is to be removed. -/
theorem Grow.toZap (h : Grow roots w) : w.toZap = 0 := by
  have hany : ¬ w.unread.any Event.leaves = true := by
    intro hany
    obtain ⟨ev, hev, hleaves⟩ := List.any_eq_true.mp hany
    rw [(h.events ev hev).not_leaves] at hleaves
    nomatch hleaves
  have hgrows := h.pc
  unfold World.toZap
  split
  · rename_i hpc
    rw [hpc] at hgrows
    exact hgrows.elim
  · rfl
  · exact if_neg hany

/-- Fewer events, and no more slots. -/
theorem toZap_le (hpc : ∀ path slot ret, w.mon.pc ≠ .zap path slot ret) (hne : w.mon.pc ≠ .exited)
    (hpc' : ∀ path slot ret, w'.mon.pc ≠ .zap path slot ret) (hsub : ∀ ev ∈ w'.unread, ev ∈ w.unread)
    (hused : (used w'.mon.cache).length ≤ (used w.mon.cache).length) : w'.toZap ≤ w.toZap := by
  have hw : w.toZap = if w.unread.any Event.leaves then (used w.mon.cache).length + 1 else 0 := by
    unfold World.toZap
    split
    · rename_i heq
      exact absurd heq (hpc _ _ _)
    · rename_i heq
      exact absurd heq hne
    · rfl
  rw [hw]
  unfold World.toZap
  split
  · rename_i heq
    exact absurd heq (hpc' _ _ _)
  · exact Nat.zero_le _
  · split
    · rename_i hany
      obtain ⟨ev, hev, hleaves⟩ := List.any_eq_true.mp hany
      rw [if_pos (List.any_eq_true.mpr ⟨ev, hsub ev hev, hleaves⟩)]
      omega
    · exact Nat.zero_le _

/-- Processing an event does not bring back a call of `zapSubtree`: it was owed for this event, or for one
    that is still unread. -/
theorem Processed.toZap {m' : Monitor} (h : Processed size ev rest w.mon.cache m')
    (hpc : w.mon.pc = .loop (ev :: rest) numRead firstTry) : World.toZap { w with mon := m' } ≤ w.toZap := by
  have hunread : w.unread = ev :: (rest ++ w.queue) := by
    unfold World.unread
    rw [hpc]
    rfl
  by_cases hzap : ∃ path slot ret, m'.pc = .zap path slot ret
  · -- the event that is processed counted one more
    obtain ⟨path, slot, ret, hzap⟩ := hzap
    have hw : w.toZap = (InotifyDtree.used w.mon.cache).length + 1 := by
      unfold World.toZap
      rw [hpc]
      refine if_pos (List.any_eq_true.mpr ⟨ev, ?_, h.zap path slot ret hzap⟩)
      rw [hunread]
      exact List.mem_cons_self
    have hw' : World.toZap { w with mon := m' } = (InotifyDtree.used m'.cache).length := by
      unfold World.toZap
      dsimp only
      rw [hzap]
    have hused := h.used
    omega
  · refine toZap_le ?_ ?_ (fun path slot ret heq => hzap ⟨path, slot, ret, heq⟩) ?_ h.used
    · rw [hpc]
      nofun
    · rw [hpc]
      nofun
    · intro e he
      rw [hunread]
      rcases List.mem_append.mp he with he | he
      · exact List.mem_cons_of_mem _ (List.mem_append_left _ (h.buffer e he))
      · exact List.mem_cons_of_mem _ (List.mem_append_right _ he)

/-- The price falls where the watches to remove do not become more and the rest becomes less. -/
theorem cost_lt (hdirs : w'.dirs = w.dirs) (hzap : w'.toZap ≤ w.toZap)
    (hlt : w'.mon.cost w.dirs.length + w'.queue.length * (eventCost w.dirs.length + 3) <
      w.mon.cost w.dirs.length + w.queue.length * (eventCost w.dirs.length + 3)) : w'.cost < w.cost := by
  have hmul := Nat.mul_le_mul_right (eventCost w.dirs.length + 4) hzap
  unfold World.cost
  rw [hdirs]
  omega

/-- An event is processed, or put off. -/
theorem cost_process (hphase : Phase roots w') (hw : Wellformed w) (hw' : Wellformed w')
    (hnever : w.mon.reinitCnt = 0) (hstep : w.step .process = some w') : w'.cost < w.cost := by
  obtain ⟨ev, rest, numRead, firstTry, hpc, -, rfl⟩ := process_cases hw.sound hstep
  have hcost : ∀ size, w.mon.cost size = rest.length * eventCost size + eventCost size + if firstTry then 2 else 0 := by
    intro size
    unfold Monitor.cost
    rw [hpc]
    show (rest.length + 1) * eventCost size + _ = _
    rw [Nat.succ_mul]
  rcases process_outcome w.dirs.length w.mon ev rest numRead firstTry with h | h | h | ⟨rfl, h⟩
  · refine cost_lt rfl (h.toZap hpc) ?_
    have hle := h.cost
    have hevent : eventCost w.dirs.length = visitCost w.dirs.length 0 + 5 := rfl
    rw [hcost]
    dsimp only
    omega
  · have hpcs := hw'.sound.pc
    unfold PcSound at hpcs
    rw [h] at hpcs
    exact hpcs.elim
  · have hzero := hphase.never
    rw [h] at hzero
    omega
  · rw [h]
    refine cost_lt rfl (toZap_le ?_ ?_ nofun ?_ (Nat.le_refl _)) ?_
    · rw [hpc]
      nofun
    · rw [hpc]
      nofun
    · intro e he
      unfold World.unread
      rw [hpc]
      exact he
    · have hmore : Monitor.cost w.dirs.length { w.mon with pc := .more (ev :: rest) numRead true } =
          rest.length * eventCost w.dirs.length + eventCost w.dirs.length + 1 := by
        show (rest.length + 1) * eventCost w.dirs.length + 1 = _
        rw [Nat.succ_mul]
      rw [hcost, hmore, if_pos rfl]
      dsimp only
      omega

/-- An event in the queue pays for being read. -/
theorem cost_read {j : Nat} (hstep : w.step (.read j) = some w') : w'.cost < w.cost := by
  unfold World.step at hstep
  dsimp only at hstep
  split at hstep
  · rename_i hj
    obtain ⟨w₁, hw₁, rfl⟩ := Option.map_eq_some_iff.mp hstep
    obtain ⟨m', hm', rfl⟩ := Option.map_eq_some_iff.mp hw₁
    obtain ⟨i, hi⟩ := Nat.exists_eq_add_of_le hj.2
    have htake : (w.queue.take j).length = j := List.length_take_of_le hj.2
    have hdrop : (w.queue.drop j).length = i := by
      rw [List.length_drop]
      omega
    have hadd := Nat.add_mul j i (eventCost w.dirs.length + 3)
    have hthree := Nat.mul_add j (eventCost w.dirs.length) 3
    obtain ⟨-, ⟨hpc, rfl⟩ | ⟨buf, numRead, armed, hpc, rfl⟩⟩ := step_read hm'
    · refine cost_lt rfl (toZap_le ?_ ?_ (fun _ => toLoop_pc_ne_zap w.mon) ?_ (Nat.le_refl _)) ?_
      · rw [hpc]
        nofun
      · rw [hpc]
        nofun
      · intro e he
        unfold World.unread
        rw [hpc]
        rcases List.mem_append.mp he with he | he
        · exact List.mem_of_mem_take (buffer_toLoop he)
        · exact List.mem_of_mem_drop he
      · have hle := cost_toLoop w.dirs.length w.mon (w.queue.take j) (sizes (w.queue.take j)) true
        rw [htake, if_pos rfl] at hle
        dsimp only
        rw [hdrop, hi]
        omega
    · have hcost : buf.length * eventCost w.dirs.length ≤ w.mon.cost w.dirs.length := by
        unfold Monitor.cost
        rw [hpc]
        exact Nat.le_add_right _ _
      refine cost_lt rfl (toZap_le ?_ ?_ (fun _ => toLoop_pc_ne_zap w.mon) ?_ (Nat.le_refl _)) ?_
      · rw [hpc]
        nofun
      · rw [hpc]
        nofun
      · intro e he
        unfold World.unread
        rw [hpc]
        rcases List.mem_append.mp he with he | he
        · rcases List.mem_append.mp (buffer_toLoop he) with he | he
          · exact List.mem_append_left _ he
          · exact List.mem_append_right _ (List.mem_of_mem_take he)
        · exact List.mem_append_right _ (List.mem_of_mem_drop he)
      · have hle := cost_toLoop w.dirs.length w.mon (buf ++ w.queue.take j)
          (numRead + sizes (w.queue.take j)) false
        rw [List.length_append, htake, Nat.add_mul, if_neg nofun] at hle
        dsimp only
        rw [hdrop, hi]
        omega
  · nomatch hstep

/-- What is to be done at the second read, before the alarm. -/
theorem cost_armed {buf : List Event} (hpc : w.mon.pc = .more buf numRead true) (size : Nat) :
    w.mon.cost size = buf.length * eventCost size + 1 := by
  unfold Monitor.cost
  rw [hpc]
  rfl

/-- The alarm that interrupts the second read is used up. -/
theorem cost_timeout (hstep : w.step .timeout = some w') : w'.cost < w.cost := by
  obtain ⟨buf, numRead, hpc, -, rfl⟩ := timeout_cases hstep
  refine cost_lt rfl (toZap_le ?_ ?_ (fun _ => toLoop_pc_ne_zap w.mon) ?_ (Nat.le_refl _)) ?_
  · rw [hpc]
    nofun
  · rw [hpc]
    nofun
  · intro e he
    unfold World.unread
    rw [hpc]
    rcases List.mem_append.mp he with he | he
    · exact List.mem_append_left _ (buffer_toLoop he)
    · exact List.mem_append_right _ he
  · have hle := cost_toLoop w.dirs.length w.mon buf (numRead + -1) false
    rw [if_neg nofun] at hle
    dsimp only
    rw [cost_armed hpc]
    omega

/-- So is the one that comes before it. -/
theorem cost_alarm (hstep : w.step .alarm = some w') : w'.cost < w.cost := by
  obtain ⟨buf, numRead, hpc, rfl⟩ := alarm_cases hstep
  refine cost_lt rfl (toZap_le ?_ ?_ nofun ?_ (Nat.le_refl _)) ?_
  · rw [hpc]
    nofun
  · rw [hpc]
    nofun
  · intro e he
    unfold World.unread
    rw [hpc]
    exact he
  · rw [cost_armed hpc]
    show buf.length * eventCost w.dirs.length + 0 + w.queue.length * _ < _
    omega

/-- A walk, by one step. -/
theorem cost_walk {stack stack' : List Frame} {ret : AfterWalk} (h' : Grow roots w')
    (hdirs : w'.dirs = w.dirs) (hqueue : w'.queue = w.queue) (hpc : w.mon.pc = .walk stack ret)
    (hpc' : w'.mon.pc = .walk stack' ret)
    (hlt : stackCost w.dirs.length stack' < stackCost w.dirs.length stack) : w'.cost < w.cost := by
  refine cost_lt hdirs ?_ ?_
  · rw [h'.toZap]
    exact Nat.zero_le _
  · unfold Monitor.cost
    rw [hpc, hpc', hqueue]
    dsimp only
    omega

/-- A visited directory is opened, and has fewer entries than there are directories. -/
theorem cost_addWatch (h : Grow roots w) (hsound : Sound w.mon) (hstep : w.step .addWatch = some w') :
    w'.cost < w.cost := by
  have h' := h.addWatch hsound hstep
  unfold World.step at hstep
  dsimp only at hstep
  split at hstep
  · rename_i path stack ret hpc
    have hvisit : Walked w (.visit path) := by
      refine h.walked _ ?_
      rw [hpc]
      exact List.mem_cons_self
    obtain ⟨d, hd, rfl⟩ := hvisit.of_visit
    have hlt : stackCost w.dirs.length (.scan d.path.str (w.children d.path) :: stack) <
        stackCost w.dirs.length (.visit d.path.str :: stack) := by
      refine Nat.add_lt_add_right (visitCost_lt ?_ (h.tree.slashes_lt hd)) _
      exact List.length_filterMap_le ..
    unfold World.addWatch at hstep
    rw [lookup_eq h.tree h.apart hd] at hstep
    dsimp only at hstep
    split at hstep
    · obtain ⟨m', hm', rfl⟩ := Option.map_eq_some_iff.mp hstep
      obtain rfl := watched_inv hpc hm'
      exact cost_walk h' rfl rfl hpc rfl hlt
    · obtain ⟨w₁, hw₁, rfl⟩ := Option.map_eq_some_iff.mp hstep
      obtain ⟨m', hm', rfl⟩ := Option.map_eq_some_iff.mp hw₁
      obtain rfl := watched_inv hpc hm'
      exact cost_walk h' rfl rfl hpc rfl hlt
  · nomatch hstep

/-- An entry turns from one that is due into a visit, one level deeper. -/
theorem cost_entry {n : FileName} (h : Grow roots w) (hstep : w.step (.entry n) = some w') : w'.cost < w.cost := by
  have h' := h.entry hstep
  unfold World.step at hstep
  dsimp only at hstep
  split at hstep
  · rename_i path due stack ret hpc
    split at hstep
    · rename_i hn
      obtain ⟨m', hm', rfl⟩ := Option.map_eq_some_iff.mp hstep
      obtain ⟨path', due', stack', ret', hpc', rfl⟩ := step_entry hm'
      obtain ⟨hstk, rfl⟩ := Pc.walk.inj (hpc.symm.trans hpc')
      obtain ⟨hframe, rfl⟩ := List.cons.inj hstk
      obtain ⟨rfl, rfl⟩ := Frame.scan.inj hframe
      refine cost_walk h' rfl rfl hpc rfl ?_
      have hlen : due.length = (due.erase n).length + 1 := by
        have hpos := List.length_pos_of_mem hn
        rw [List.length_erase_of_mem hn]
        omega
      show visitCost _ (slashes (path.slash n.str)) + ((due.erase n).length * _ + 1 + _) < due.length * _ + 1 + _
      rw [slashes_slash, hlen, Nat.succ_mul]
      omega
    · nomatch hstep
  · nomatch hstep

/-- The end of a directory takes its frame off the stack. -/
theorem cost_endOfDir (h : Grow roots w) (hsound : Sound w.mon) (hstep : w.step .endOfDir = some w') :
    w'.cost < w.cost := by
  have h' := h.endOfDir hsound hstep
  unfold World.step at hstep
  dsimp only at hstep
  split at hstep
  · rename_i path stack ret hpc
    obtain ⟨m', hm', rfl⟩ := Option.map_eq_some_iff.mp hstep
    obtain ⟨path', due', stack', ret', hpc', rfl⟩ := step_endOfDir hm'
    obtain ⟨hstk, rfl⟩ := Pc.walk.inj (hpc.symm.trans hpc')
    obtain ⟨-, rfl⟩ := List.cons.inj hstk
    refine cost_lt rfl ?_ ?_
    · rw [h'.toZap]
      exact Nat.zero_le _
    · have hle := cost_toWalk w.dirs.length w.mon stack ret
      have hcost : w.mon.cost w.dirs.length = 1 + stackCost w.dirs.length stack + ret.cost w.dirs.length + 3 := by
        unfold Monitor.cost
        rw [hpc]
        show 0 * _ + 1 + _ + _ + 3 = _
        rw [Nat.zero_mul, Nat.zero_add]
      dsimp only
      rw [hcost]
      omega
  · nomatch hstep

/-- The first call builds the cache from the roots. -/
theorem cost_init (h : Grow roots w) (hstep : w.step .init = some w') : w'.cost < w.cost := by
  have h' := h.reinit hstep
  obtain ⟨w₁, hw₁, rfl⟩ := Option.map_eq_some_iff.mp hstep
  obtain ⟨m', hm', rfl⟩ := Option.map_eq_some_iff.mp hw₁
  obtain ⟨hpc, rfl⟩ := step_initialized hm'
  refine cost_lt rfl ?_ ?_
  · rw [h'.toZap]
    exact Nat.zero_le _
  · have hle := cost_build w.dirs.length (⟨[], w.mon.rootDirPaths, w.mon.ignoreRootDirs, w.mon.reinitCnt, w.mon.pc⟩ : Monitor)
      w.mon.rootDirPaths
    have hcost : w.mon.cost w.dirs.length = w.mon.rootDirPaths.length * (visitCost w.dirs.length 0 + 1) + 4 := by
      unfold Monitor.cost
      rw [hpc]
    show _ + 0 * _ < _
    rw [hcost, Nat.zero_mul]
    dsimp only
    omega

/-- A watch that is removed queues an `IN_IGNORED`, for less than the watch was priced. -/
theorem cost_rmWatch (h : Zapping roots path w) (hsound : Sound w.mon) (hstep : w.step .rmWatch = some w') :
    w'.cost < w.cost := by
  have hnext := h.rmWatch hsound hstep
  have hnever' : w'.mon.reinitCnt = 0 := by
    rcases hnext with h' | h'
    · exact h'.never
    · exact h'.leaving.settled.never
  obtain ⟨slot, rest, numRead, hpc, -⟩ := h.pc
  have hpcs := hsound.pc
  unfold PcSound at hpcs
  rw [hpc] at hpcs
  obtain ⟨⟨s, hget, hwd, -⟩, -⟩ := hpcs
  unfold World.step at hstep
  dsimp only at hstep
  rw [hpc] at hstep
  dsimp only at hstep
  rw [hget] at hstep
  have hstep' : w.rmWatch s.wd = some w' := hstep
  unfold World.rmWatch at hstep'
  split at hstep'
  · -- the call fails, and the cache is built again
    obtain ⟨m', hm', rfl⟩ := Option.map_eq_some_iff.mp hstep'
    unfold Monitor.step at hm'
    rw [hpc] at hm'
    cases hm'
    exact absurd hnever' (Nat.succ_ne_zero _)
  · rename_i d hfind
    obtain ⟨w₁, hw₁, heq⟩ := Option.map_eq_some_iff.mp hstep'
    obtain ⟨m', hm', rfl⟩ := Option.map_eq_some_iff.mp hw₁
    obtain ⟨path', slot', ret', hpc', rfl⟩ := step_removed hm'
    obtain ⟨rfl, rfl, rfl⟩ := Pc.zap.inj (hpc.symm.trans hpc')
    have hmon : w'.mon = Monitor.zapSubtree { w.mon with cache := markCacheSlotEmpty w.mon.cache slot } path (slot + 1)
        (.event rest numRead) := by rw [← heq]
    have hdirs : w'.dirs = w.dirs := by rw [← heq]
    have hqueue : w'.queue = w.queue ++ w.report d.ino ignored := by rw [← heq]
    have hused := (used_markCacheSlotEmpty hget hwd).length_eq
    rw [List.length_cons] at hused
    have hzap : w.toZap = (used w.mon.cache).length := by
      unfold World.toZap
      rw [hpc]
    -- one watch less is to be removed
    have hzap' : w'.toZap + 1 ≤ (used w.mon.cache).length := by
      rcases hnext with h' | h'
      · rw [h'.toZap]
        omega
      · obtain ⟨slot', rest', numRead', hpc', -⟩ := h'.pc
        unfold World.toZap
        rw [hpc']
        dsimp only
        exact Nat.le_of_eq (by rw [hmon, zapSubtree_cache, hused])
    have hle := cost_zapSubtree w.dirs.length { w.mon with cache := markCacheSlotEmpty w.mon.cache slot } path
      (slot + 1) rest numRead
    rw [← hmon] at hle
    have hcost : w.mon.cost w.dirs.length = rest.length * eventCost w.dirs.length + 3 := by
      unfold Monitor.cost
      rw [hpc]
      rfl
    have hreport : (w.report d.ino ignored).length ≤ 1 := by
      unfold World.report
      rw [List.length_map]
      cases w.watch d.ino <;> simp
    have hmul := Nat.mul_le_mul_right (eventCost w.dirs.length + 4) hzap'
    have hmul' := Nat.mul_le_mul_right (eventCost w.dirs.length + 3) hreport
    rw [Nat.succ_mul] at hmul
    unfold World.cost
    rw [hcost, hzap, hdirs, hqueue, List.length_append, Nat.add_mul]
    omega

/-! ## A call is always possible -/

/-- The calls of a walk, and those before it. -/
def Pc.Walks : Pc → Prop
  | .init | .walk _ _ => True
  | _ => False

theorem Pc.Reads.not_walks {pc : Pc} (h : pc.Reads) : ¬ pc.Walks := by
  cases pc <;> simp_all [Pc.Reads, Pc.Walks]

theorem Moving.not_walks (h : Moving w) : ¬ w.mon.pc.Walks := by
  unfold Moving at h
  generalize w.mon.pc = pc at h
  cases pc <;> simp_all [Pc.Walks]

/-- The calls of a walk are made in no other place. -/
theorem Act.Fits.walks {a : Act} {pc : Pc} (h : a.Fits pc)
    (ha : a = .init ∨ a = .addWatch ∨ (∃ n, a = .entry n) ∨ a = .endOfDir) : pc.Walks := by
  rcases ha with rfl | rfl | ⟨n, rfl⟩ | rfl <;> cases pc <;> first | exact True.intro | exact h.elim

/-- A walk is underway only while the trees grow. -/
theorem Phase.grow_of_walks (h : Phase roots w) (hpc : w.mon.pc.Walks) : Grow roots w := by
  cases h with
  | grow h => exact h
  | removed d k isDir h => exact absurd hpc h.pc.not_walks
  | renamed dirs q n q' n' k k' cookie h => exact absurd hpc h.stage.not_walks
  | movedOut q n k cookie h => exact absurd hpc h.stage.not_walks
  | rootMoved r k isDir h => exact absurd hpc h.pc.not_walks
  | zapping path h =>
    obtain ⟨slot, rest, numRead, hzap, -⟩ := h.pc
    rw [hzap] at hpc
    exact hpc.elim
  | ended h =>
    rw [h.1] at hpc
    exact hpc.elim

/-- The calls of `zapSubtree`. -/
def Pc.Zaps : Pc → Prop
  | .zap _ _ _ => True
  | _ => False

theorem Moving.not_zaps (h : Moving w) : ¬ w.mon.pc.Zaps := by
  unfold Moving at h
  generalize w.mon.pc = pc at h
  cases pc <;> simp_all [Pc.Zaps]

theorem Pc.Reads.not_zaps {pc : Pc} (h : pc.Reads) : ¬ pc.Zaps := by
  cases pc <;> simp_all [Pc.Reads, Pc.Zaps]

/-- Only in one phase is the monitor inside `zapSubtree`. -/
theorem Phase.zapping_of_zaps (h : Phase roots w) (hpc : w.mon.pc.Zaps) : ∃ path, Zapping roots path w := by
  cases h with
  | grow h =>
    have hgrows := h.pc
    revert hgrows hpc
    cases w.mon.pc with
    | zap path slot ret => exact fun _ hgrows => hgrows.elim
    | _ => exact fun hpc => hpc.elim
  | removed d k isDir h => exact absurd hpc h.pc.not_zaps
  | renamed dirs q n q' n' k k' cookie h => exact absurd hpc h.stage.not_zaps
  | movedOut q n k cookie h => exact absurd hpc h.stage.not_zaps
  | rootMoved r k isDir h => exact absurd hpc h.pc.not_zaps
  | zapping path h => exact ⟨path, h⟩
  | ended h =>
    rw [h.1] at hpc
    exact hpc.elim

/-- **Every call of the monitor makes what there is to do less.** -/
theorem cost_step {a : Act} (hphase : Phase roots w) (hw : Wellformed w) (hown : a.Own)
    (hstep : w.step a = some w') : w'.cost < w.cost := by
  have hfits := fits_of_own hown hstep
  cases a with
  | attach q n new moved seen => exact hown.elim
  | detach q n => exact hown.elim
  | rename q n q' n' => exact hown.elim
  | rmdir d isDir => exact hown.elim
  | moveRoot d isDir => exact hown.elim
  | init => exact cost_init (hphase.grow_of_walks (hfits.walks (Or.inl rfl))) hstep
  | process => exact cost_process (hphase.step hw hown.guard hstep) hw (hw.step hstep) hphase.never hstep
  | read j => exact cost_read hstep
  | timeout => exact cost_timeout hstep
  | alarm => exact cost_alarm hstep
  | addWatch => exact cost_addWatch (hphase.grow_of_walks (hfits.walks (Or.inr (Or.inl rfl)))) hw.sound hstep
  | entry n => exact cost_entry (hphase.grow_of_walks (hfits.walks (Or.inr (Or.inr (Or.inl ⟨n, rfl⟩))))) hstep
  | endOfDir => exact cost_endOfDir (hphase.grow_of_walks (hfits.walks (Or.inr (Or.inr (Or.inr rfl))))) hw.sound hstep
  | rmWatch =>
    have hzaps : w.mon.pc.Zaps := by
      revert hfits
      cases w.mon.pc <;> simp [Act.Fits, Pc.Zaps]
    obtain ⟨path, h⟩ := hphase.zapping_of_zaps hzaps
    exact cost_rmWatch h hw.sound hstep

/-- A walk that is underway can always go on. -/
theorem Grow.walk_step {stack : List Frame} {ret : AfterWalk} (h : Grow roots w) (hpc : w.mon.pc = .walk stack ret) :
    ∃ a : Act, a.Own ∧ (w.step a).isSome := by
  cases stack with
  | nil =>
    have hgrows := h.pc
    rw [hpc] at hgrows
    exact hgrows.elim
  | cons f stack =>
    cases f with
    | visit path =>
      have hvisit : Walked w (.visit path) := by
        refine h.walked _ ?_
        rw [hpc]
        exact List.mem_cons_self
      obtain ⟨d, hd, rfl⟩ := hvisit.of_visit
      refine ⟨.addWatch, True.intro, ?_⟩
      unfold World.step World.addWatch World.answered Monitor.step
      rw [hpc]
      dsimp only
      rw [lookup_eq h.tree h.apart hd]
      dsimp only
      split
      · rfl
      · rfl
    | scan path due =>
      cases due with
      | nil =>
        refine ⟨.endOfDir, True.intro, ?_⟩
        unfold World.step World.answered Monitor.step
        rw [hpc]
        rfl
      | cons n due =>
        refine ⟨.entry n, True.intro, ?_⟩
        unfold World.step World.answered Monitor.step
        rw [hpc]
        dsimp only
        rw [if_pos List.mem_cons_self]
        rfl

/-- What is in the queue can be read. -/
theorem read_step (hqueue : w.queue ≠ [])
    (hpc : w.mon.pc = .select ∨ ∃ buf numRead armed, w.mon.pc = .more buf numRead armed) :
    (w.step (.read 1)).isSome := by
  have htake : w.queue.take 1 ≠ [] := by
    obtain ⟨ev, evs, hcons⟩ := List.exists_cons_of_ne_nil hqueue
    rw [hcons]
    nofun
  have hlen : 0 < 1 ∧ 1 ≤ w.queue.length := ⟨Nat.one_pos, List.length_pos_iff.mpr hqueue⟩
  unfold World.step World.answered Monitor.step
  dsimp only
  rw [if_pos hlen]
  rcases hpc with hpc | ⟨buf, numRead, armed, hpc⟩
  · rw [hpc]
    dsimp only
    rw [if_neg htake]
    rfl
  · rw [hpc]
    dsimp only
    rw [if_neg htake]
    rfl

/-- The alarm has come before the second read, and no event comes: the program waits for good. -/
def World.Blocked (w : World) : Prop := w.queue = [] ∧ ∃ buf numRead, w.mon.pc = .more buf numRead false

/-- **A call is possible**, unless everything has been processed. -/
theorem progress (hphase : Phase roots w) (hw : Wellformed w) (hcalm : ¬ w.Calm) (hne : w.mon.pc ≠ .exited)
    (hfree : ¬ w.Blocked) : ∃ a : Act, a.Own ∧ (w.step a).isSome := by
  have hpcs := hw.sound.pc
  unfold PcSound at hpcs
  cases hpc : w.mon.pc with
  | init =>
    refine ⟨.init, True.intro, ?_⟩
    unfold World.step World.answered Monitor.step
    rw [hpc]
    rfl
  | select => exact ⟨.read 1, True.intro, read_step (fun hqueue => hcalm ⟨hpc, hqueue⟩) (Or.inl hpc)⟩
  | loop buf numRead firstTry =>
    refine ⟨.process, True.intro, ?_⟩
    unfold World.step World.answered Monitor.step
    rw [hpc]
    cases buf with
    | nil => rfl
    | cons ev rest => rfl
  | more buf numRead armed =>
    by_cases hqueue : w.queue = []
    · cases armed with
      | true =>
        refine ⟨.timeout, True.intro, ?_⟩
        unfold World.step World.answered Monitor.step
        rw [hpc]
        dsimp only
        rw [if_pos hqueue]
        rfl
      | false => exact absurd ⟨hqueue, buf, numRead, hpc⟩ hfree
    · exact ⟨.read 1, True.intro, read_step hqueue (Or.inr ⟨buf, numRead, armed, hpc⟩)⟩
  | walk stack ret =>
    refine (hphase.grow_of_walks ?_).walk_step hpc
    rw [hpc]
    exact True.intro
  | zap path slot ret =>
    rw [hpc] at hpcs
    obtain ⟨⟨s, hget, -⟩, -⟩ := hpcs
    refine ⟨.rmWatch, True.intro, ?_⟩
    unfold World.step
    rw [hpc]
    dsimp only
    rw [hget]
    show (w.rmWatch s.wd).isSome = true
    unfold World.rmWatch World.answered Monitor.step
    rw [hpc]
    split
    · rfl
    · rfl
  | exited => exact absurd hpc hne
  | undefined =>
    rw [hpc] at hpcs
    exact hpcs.elim

/-! ## Whole runs -/

/-- The monitor is left alone. -/
def Alone (_ : World) (a : Act) : Prop := a.Own

instance (w : World) (a : Act) : Decidable (Alone w a) := inferInstanceAs (Decidable a.Own)

/-- **The monitor catches up.**  From any moment of a run on, when others do nothing more, the monitor
    makes a bounded number of calls, in whatever pieces it reads; when it can make none, it has exited
    and there is no directory left, or it has processed everything and lists the directories that
    there are, or its alarm came too early and it waits in the second read. -/
theorem monitor_drains {w₀ : World} (hstart : Start roots w₀) (h : Reach World.step (Guard roots) w₀ w) :
    ∃ bound : Nat, ∀ acts w', runList World.step Alone w acts = some w' → acts.length ≤ bound ∧
      ((∀ a : Act, a.Own → w'.step a = none) → (w'.mon.pc = .exited ∧ w.dirs = []) ∨ w'.Blocked ∨
        (w'.Calm ∧ (directoryList w'.mon.cache).Perm (w.dirs.map fun d => d.path.str))) := by
  have hinv := hstart.phase h
  refine ⟨w.cost, fun acts w' hrun => ?_⟩
  have hbound : ((Wellformed w' ∧ Phase roots w') ∧ w'.dirs = w.dirs) ∧
      acts.countP (fun _ => true) + w'.cost ≤ w.cost := by
    refine runList_bound (I := fun v => (Wellformed v ∧ Phase roots v) ∧ v.dirs = w.dirs) ?_ ⟨hinv, rfl⟩ hrun
    rintro v a v' ⟨⟨hw, hphase⟩, hdirs⟩ hown hstep
    have hcalled := called_of_own hw.shaped hstep hown
    refine ⟨⟨⟨hw.step hstep, hphase.step hw hown.guard hstep⟩, hcalled.dirs.trans hdirs⟩, ?_⟩
    exact cost_step hphase hw hown hstep
  obtain ⟨⟨⟨hw, hphase⟩, hdirs⟩, hlen⟩ := hbound
  rw [List.countP_true] at hlen
  refine ⟨by omega, fun hstuck => ?_⟩
  by_cases hex : w'.mon.pc = .exited
  · exact Or.inl ⟨hex, hdirs.symm.trans (hphase.exited hex).2.1⟩
  by_cases hfree : w'.Blocked
  · exact Or.inr (Or.inl hfree)
  by_cases hcalm : w'.Calm
  · refine Or.inr (Or.inr ⟨hcalm, ?_⟩)
    rw [← hdirs]
    exact (hphase.calm hcalm).directoryList hw.sound.cache hcalm
  · obtain ⟨a, hown, hsome⟩ := progress hphase hw hcalm hex hfree
    rw [hstuck a hown] at hsome
    nomatch hsome

/-- The directory `x` has been moved into `a`, with `z` in it, and the monitor has not read that yet. -/
theorem monitor_drains_movedIn : ∃ w : World, (directoryList w.mon.cache).map CStr.bytes = [[97]] ∧
    w.dirs.length = 3 ∧ ∃ bound : Nat, ∀ acts w', runList World.step Alone w acts = some w' → acts.length ≤ bound ∧
      ((∀ a : Act, a.Own → w'.step a = none) → (w'.mon.pc = .exited ∧ w.dirs = []) ∨ w'.Blocked ∨
        (w'.Calm ∧ (directoryList w'.mon.cache).Perm (w.dirs.map fun d => d.path.str))) := by
  let a : CStr := ⟨[97], by decide⟩
  let x : FileName := ⟨[120], by decide⟩
  let z : FileName := ⟨[122], by decide⟩
  let da : Dir := ⟨⟨a, []⟩, 1⟩
  let w₀ : World := ⟨start [a], [da], [], fun _ => none, [], 1, 0⟩
  have hstart : Start [a] w₀ := by
    refine ⟨rfl, nofun, List.nodup_singleton a, by decide, ?_, by decide +kernel, by decide +kernel,
      fun _ => rfl, rfl, rfl⟩
    intro r hr s hs _
    rw [List.mem_singleton.mp hr, List.mem_singleton.mp hs]
  have hrun : (runList World.step (Guard [a]) w₀
      [.init, .addWatch, .endOfDir, .attach da x [⟨⟨a, [x]⟩, 2⟩, ⟨⟨a, [x, z]⟩, 3⟩] true false]).map
      (fun w => ((directoryList w.mon.cache).map CStr.bytes, w.dirs.length)) = some ([[97]], 3) := by decide +kernel
  obtain ⟨w, hw, hobs⟩ := Reach.of_observed hrun
  obtain ⟨hlist, hlen⟩ := Prod.mk.inj hobs
  exact ⟨w, hlist, hlen, monitor_drains hstart hw⟩

-- `x` is moved out of `a`, and the alarm comes before the program has got to the second read
example :
    let a : CStr := ⟨[97], by decide⟩
    let x : FileName := ⟨[120], by decide⟩
    let da : Dir := ⟨⟨a, []⟩, 1⟩
    (runList World.step (Guard [a])
      ⟨start [a], [da, ⟨⟨a, [x]⟩, 2⟩], [], fun _ => none, [], 1, 0⟩
      [.init, .addWatch, .entry x, .addWatch, .endOfDir, .endOfDir, .detach da x, .read 1, .process,
        .alarm]).map (fun w => (w.queue, w.mon.pc)) =
      some ([], .more [movedFrom 0 x 1] 32 false) := by decide +kernel

end

end LinuxInterface.InotifyDtree
