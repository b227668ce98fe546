/-
  inotify/inotify_dtree.c (tlpi-dist), whatever the answers are: no descriptor is in the cache twice,
  the count of roots is right, and no slot is used that was not looked up.  The count of bytes is
  right but for one case: after an interrupted second read it is one too small (`Buffer`, `Rest`).

  1. **The cache** — `CacheSound` and what each function of the cache does to it.

  2. **The program** — what is known at each call (`PcSound`), and one lemma for each function that
     goes on to a call.  `Sound.step` is one step, `monitor_sound` a whole run.
-/
import LinuxInterface.Dist.InotifyDtree
import LinuxInterface.Base.Reach

namespace LinuxInterface.InotifyDtree

open LinuxInterface

/-! ## The cache -/

/-- What inotify reports: an event without a descriptor is an overflow, and one that says that a watch
    is gone says nothing else. -/
def Shaped (ev : Event) : Prop :=
  (ev.wd = -1 → ev.mask = IN_Q_OVERFLOW) ∧ (ev.has IN_IGNORED = true → ev.mask = IN_IGNORED)

instance (ev : Event) : Decidable (Shaped ev) := inferInstanceAs (Decidable (_ ∧ _))

/-- All that is asked of the answers. -/
def Kernel (_ : Monitor) : Answer → Prop
  | .watched wd _ => 0 ≤ wd
  | .read evs => ∀ ev ∈ evs, Shaped ev
  | _ => True

instance (m : Monitor) (a : Answer) : Decidable (Kernel m a) := by
  cases a <;> unfold Kernel <;> infer_instance

/-- No descriptor occurs twice, and a slot that is not used is empty. -/
structure CacheSound (C : Cache) : Prop where
  distinct : ((used C).map Watch.wd).Nodup
  free : ∀ w ∈ C, 0 ≤ w.wd ∨ w = unused
  size : ALLOC_INCR ∣ C.length

namespace CacheSound

variable {C : Cache} {w : Watch} {wd : Int} {j : Nat}

theorem nil : CacheSound [] := ⟨List.nodup_nil, nofun, Nat.dvd_zero _⟩

/-- A slot is emptied. -/
theorem mark (h : CacheSound C) (hw : C[j]? = some w) (hwd : 0 ≤ w.wd) :
    CacheSound (markCacheSlotEmpty C j) where
  distinct := by
    have hperm := (used_markCacheSlotEmpty hw hwd).map Watch.wd
    exact (List.nodup_cons.mp (hperm.nodup_iff.mp h.distinct)).2
  free := by
    intro v hv
    rcases List.mem_or_eq_of_mem_set hv with hv | rfl
    · exact h.free v hv
    · exact Or.inr rfl
  size := by
    rw [markCacheSlotEmpty, List.length_set]
    exact h.size

/-- A descriptor that was not there gets a slot, which may make the array grow. -/
theorem add (h : CacheSound C) (hwd : 0 ≤ wd) (hnew : findWatch C wd = none) (path : CStr) :
    CacheSound (addWatchToCache C wd path) where
  distinct := by
    have hperm := (used_addWatchToCache (C := C) hwd path).map Watch.wd
    refine hperm.nodup_iff.mpr (List.nodup_cons.mpr ⟨?_, h.distinct⟩)
    intro hmem
    obtain ⟨v, hv, heq⟩ := List.mem_map.mp hmem
    exact findWatch_eq_none.mp hnew v (mem_used.mp hv).1 heq
  free := by
    intro v hv
    rcases List.mem_or_eq_of_mem_set hv with hv | rfl
    · unfold findEmptyCacheSlot at hv
      split at hv
      · exact h.free v hv
      · rcases List.mem_append.mp hv with hv | hv
        · exact h.free v hv
        · exact Or.inr (List.eq_of_mem_replicate hv)
    · exact Or.inl hwd
  size := by
    rw [addWatchToCache, List.length_set]
    unfold findEmptyCacheSlot
    split
    · exact h.size
    · rw [List.length_append, List.length_replicate]
      exact Nat.dvd_add h.size (Nat.dvd_refl _)

/-- No path that ends in a name is the empty one. -/
theorem rewritten_unused (a b newPrefix : CStr) :
    rewritten (snprintf PATH_MAX (a.slash b)) newPrefix unused = unused := by
  refine if_neg fun h => ?_
  obtain ⟨r, hr, -⟩ := inSubtree_iff.mp h
  have hnil : (a.bytes ++ SLASH :: b.bytes).take (PATH_MAX - 1) = [] := (List.append_eq_nil_iff.mp hr.symm).1
  rcases List.take_eq_nil_iff.mp hnil with h | h
  · exact absurd h (by decide)
  · exact absurd h (by simp)

/-- Paths are rewritten in place. -/
theorem rewrite (h : CacheSound C) (a b a' b' : CStr) : CacheSound (rewriteCachedPaths C a b a' b') where
  distinct := by
    have hwds : ∀ full new, Watch.wd ∘ rewritten full new = Watch.wd :=
      fun full new => funext (wd_rewritten full new)
    rw [used_rewriteCachedPaths, List.map_map, hwds]
    exact h.distinct
  free := by
    intro v hv
    obtain ⟨w, hw, rfl⟩ := List.mem_map.mp hv
    rcases h.free w hw with hwd | rfl
    · exact Or.inl ((wd_rewritten _ _ w).symm ▸ hwd)
    · exact Or.inr (rewritten_unused a b _)
  size := by
    rw [rewriteCachedPaths, List.length_map]
    exact h.size

end CacheSound

/-! ## The program -/

/-- `numRead` is the number of bytes of the rest of the buffer, or one less if nothing is left. -/
def Rest (rest : List Event) (numRead : Int) : Prop :=
  (numRead = sizes rest ∨ (rest = [] ∧ numRead = -1)) ∧ ∀ ev ∈ rest, Shaped ev

/-- The buffer in the loop: after an interrupted read, `numRead` is one less than the only event. -/
def Buffer (buf : List Event) (numRead : Int) (firstTry : Bool) : Prop :=
  (numRead = sizes buf ∨ (firstTry = false ∧ (∃ ev, buf = [ev]) ∧ numRead = sizes buf - 1)) ∧
    buf ≠ [] ∧ ∀ ev ∈ buf, Shaped ev

/-- Where events wait, their bytes are counted. -/
def AfterWalk.Sound : AfterWalk → Prop
  | .event rest numRead => Rest rest numRead
  | _ => True

def AfterZap.Sound : AfterZap → Prop
  | .event rest numRead => Rest rest numRead
  | _ => True

/-- What is known at the call where the program is. -/
def PcSound (m : Monitor) : Prop :=
  match m.pc with
  | .loop buf numRead firstTry => Buffer buf numRead firstTry
  | .more buf numRead _ => numRead = sizes buf ∧ ∃ ev, buf = [ev] ∧ Shaped ev
  | .walk _ ret => ret.Sound
  | .zap path slot ret => (∃ w, m.cache[slot]? = some w ∧ 0 ≤ w.wd ∧ Within path w.path) ∧ ret.Sound
  | .undefined => False
  | _ => True

/-- The cache is in order and there is a root to watch. -/
structure Live (m : Monitor) : Prop where
  cache : CacheSound m.cache
  ignored : m.ignoreRootDirs = m.rootDirPaths.count none
  root : ∃ r, some r ∈ m.rootDirPaths

/-- The program has exited, or is at a call of which it knows enough. -/
structure Sound (m : Monitor) : Prop where
  cache : CacheSound m.cache
  ignored : m.ignoreRootDirs = m.rootDirPaths.count none
  root : m.pc = .exited ∨ ∃ r, some r ∈ m.rootDirPaths
  pc : PcSound m

section

variable {m m' : Monitor} {ev : Event} {rest : List Event} {numRead : Int} {firstTry : Bool}
  {path : CStr} {j : Nat}

/-- A running program with its place in order. -/
theorem Live.sound (h : Live m) (hpc : PcSound m) : Sound m :=
  ⟨h.cache, h.ignored, Or.inr h.root, hpc⟩

theorem Sound.live (h : Sound m) (hpc : m.pc ≠ .exited) : Live m :=
  ⟨h.cache, h.ignored, h.root.resolve_left hpc⟩

/-- What is known does not depend on the call. -/
theorem Live.at (h : Live m) (pc : Pc) : Live { m with pc := pc } := ⟨h.cache, h.ignored, h.root⟩

theorem size_pos (ev : Event) : 0 < ev.size := Nat.lt_of_lt_of_le (by decide) (Nat.le_add_right 16 ev.len)

theorem sizes_cons (ev : Event) (rest : List Event) : sizes (ev :: rest) = ev.size + sizes rest := rfl

theorem sizes_append (buf evs : List Event) : sizes (buf ++ evs) = sizes buf + sizes evs := by
  induction buf with
  | nil => exact (Nat.zero_add _).symm
  | cons ev buf ih => rw [List.cons_append, sizes_cons, sizes_cons, ih, Nat.add_assoc]

/-- The head of the loop, after an event. -/
theorem Live.toLoop (h : Live m) (hrest : Rest rest numRead) (firstTry : Bool) :
    Sound (m.toLoop rest numRead firstTry) := by
  refine Live.sound (h.at _) ?_
  show PcSound { m with pc := if 0 < numRead then _ else _ }
  split
  · rename_i hpos
    obtain ⟨hnum, hshaped⟩ := hrest
    rcases hnum with hnum | ⟨-, hnum⟩
    · refine ⟨Or.inl hnum, ?_, hshaped⟩
      rintro rfl
      have : sizes [] = 0 := rfl
      omega
    · omega
  · trivial

/-- The roots that are left are walked, one after the other. -/
theorem Live.build (h : Live m) : ∀ roots : List (Option CStr), Sound (m.build roots)
  | [] => (h.at .select).sound trivial
  | none :: roots => h.build roots
  | some root :: roots => (h.at (.walk [.visit root] (.build roots))).sound trivial

/-- Whatever was in the buffer is given up. -/
theorem Live.reinitialize (h : Live m) (old : Bool) : Sound (m.reinitialize old) :=
  ⟨h.cache, h.ignored, Or.inr h.root, trivial⟩

theorem Live.exit (h : Live m) : Sound { m with pc := .exited } := (h.at .exited).sound trivial

/-- After a walk. -/
theorem Live.walked (h : Live m) : ∀ {ret : AfterWalk}, ret.Sound → Sound (m.walked ret)
  | .event _ _, hret => h.toLoop hret true
  | .build roots, _ => h.build roots
  | .command, _ => (h.at .select).sound trivial

/-- After `zapSubtree`. -/
theorem Live.zapped (h : Live m) : ∀ {ret : AfterZap}, ret.Sound → Sound (m.zapped ret)
  | .event _ _, hret => h.toLoop hret true
  | .add path, _ => (h.at (.walk [.visit path] .command)).sound trivial
  | .command, _ => (h.at .select).sound trivial

/-- After a `zapSubtree` that found a watch gone. -/
theorem Live.zapFailed (h : Live m) : ∀ ret : AfterZap, Sound (m.zapFailed ret)
  | .event _ _ => h.reinitialize true
  | .add path => (h.at (.walk [.visit path] .command)).sound trivial
  | .command => (h.at .select).sound trivial

/-- `zapSubtree`, whether or not there is a watch to remove. -/
theorem Live.zapSubtree (h : Live m) (ret : AfterZap) (hret : ret.Sound) (path : CStr) (j : Nat) :
    Sound (m.zapSubtree path j ret) := by
  unfold Monitor.zapSubtree
  split
  · rename_i k hk
    obtain ⟨-, hslot⟩ := nextToZap_eq_some hk
    exact (h.at (.zap path k ret)).sound ⟨hslot, hret⟩
  · exact h.zapped hret

/-- The root that is given up was one of those that were left. -/
theorem Live.zapRootDirPath {k : Monitor → Monitor} (h : Live m)
    (hk : ∀ m' : Monitor, Live m' → m'.cache = m.cache → Sound (k m')) :
    Sound (m.zapRootDirPath path k) := by
  unfold Monitor.zapRootDirPath
  split
  · exact h.exit
  · rename_i i hi
    have hsome : ∃ r, m.rootDirPaths[i]? = some (some r) := by
      obtain ⟨hlen, hroot, -⟩ := List.findIdx?_eq_some_iff_getElem.mp hi
      cases hr : m.rootDirPaths[i] with
      | none =>
        rw [hr] at hroot
        nomatch hroot
      | some r => exact ⟨r, by rw [List.getElem?_eq_getElem hlen, hr]⟩
    obtain ⟨r, hr⟩ := hsome
    obtain ⟨hlen, hget⟩ := List.getElem?_eq_some_iff.mp hr
    have hcount : (m.rootDirPaths.set i none).count none = m.rootDirPaths.count none + 1 := by
      rw [List.count_set hlen, hget]
      simp
    dsimp only
    split
    · refine ⟨h.cache, ?_, Or.inl rfl, trivial⟩
      show m.ignoreRootDirs + 1 = _
      rw [hcount, h.ignored]
    · rename_i hleft
      refine hk _ ⟨h.cache, ?_, ?_⟩ rfl
      · show m.ignoreRootDirs + 1 = _
        rw [hcount, h.ignored]
      · -- not every entry is `none`
        by_contra hall
        refine hleft ?_
        show m.ignoreRootDirs + 1 = (m.rootDirPaths.set i none).length
        rw [h.ignored, ← hcount, List.count_eq_length]
        intro x hx
        cases x with
        | none => rfl
        | some r => exact absurd ⟨r, hx⟩ hall

/-- The slot of an event that is looked up. -/
theorem withSlot_cases {k : Nat → CStr → Monitor} (hwd : ev.wd ≠ -1) (hign : ev.has IN_IGNORED = false)
    (hfound : findWatch m.cache ev.wd ≠ none) :
    ∃ slot w, m.cache[slot]? = some w ∧ w.wd = ev.wd ∧ m.withSlot ev k = k slot w.path := by
  obtain ⟨slot, hslot⟩ := Option.ne_none_iff_exists'.mp hfound
  obtain ⟨w, hw, hwd'⟩ := findWatch_eq_some hslot
  refine ⟨slot, w, hw, hwd', ?_⟩
  unfold Monitor.withSlot Monitor.evCacheSlot
  rw [if_pos ⟨hwd, hign⟩, hslot]
  dsimp only
  rw [hw]

/-- Behind an event. -/
theorem Buffer.tail (h : Buffer (ev :: rest) numRead firstTry) : Rest rest (numRead - ev.size) := by
  obtain ⟨hnum, -, hshaped⟩ := h
  have hcons := sizes_cons ev rest
  refine ⟨?_, fun e he => hshaped e (List.mem_cons_of_mem _ he)⟩
  rcases hnum with hnum | ⟨-, ⟨e, heq⟩, hnum⟩
  · exact Or.inl (by omega)
  · obtain ⟨rfl, rfl⟩ := List.cons.inj heq
    have : sizes [] = 0 := rfl
    exact Or.inr ⟨rfl, by omega⟩

/-- There is another event iff the bytes say so. -/
theorem Buffer.next (h : Buffer (ev :: rest) numRead firstTry) :
    ((ev.size : Int) < numRead ↔ rest ≠ []) ∧ (firstTry = true → numRead = sizes (ev :: rest)) := by
  obtain ⟨hnum, -, -⟩ := h
  have hcons := sizes_cons ev rest
  rcases hnum with hnum | ⟨hfirst, ⟨e, heq⟩, hnum⟩
  · refine ⟨?_, fun _ => hnum⟩
    cases rest with
    | nil =>
      have : sizes [] = 0 := rfl
      exact ⟨fun hlt => by omega, fun hne => absurd rfl hne⟩
    | cons e rest =>
      have hpos := size_pos e
      have := sizes_cons e rest
      exact ⟨fun _ => nofun, fun _ => by omega⟩
  · obtain ⟨rfl, rfl⟩ := List.cons.inj heq
    have : sizes [] = 0 := rfl
    refine ⟨⟨fun hlt => by omega, fun hne => absurd rfl hne⟩, fun htrue => ?_⟩
    rw [hfirst] at htrue
    nomatch htrue

/-- The branch of `IN_MOVED_FROM`: with the event behind it, with another read, or without. -/
theorem Live.movedFrom (h : Live m) (hbuf : Buffer (ev :: rest) numRead firstTry) (path : CStr) :
    Sound (m.movedFrom ev rest numRead firstTry path) := by
  have hrest := hbuf.tail
  obtain ⟨hmore, hfirst⟩ := hbuf.next
  have hzap : ∀ path, Sound (m.zapSubtree path 0 (.event rest (numRead - ev.size))) :=
    fun path => h.zapSubtree (.event rest _) hrest path 0
  unfold Monitor.movedFrom
  dsimp only
  split
  · rename_i hlt
    split
    · exact absurd rfl (hmore.mp hlt)
    · rename_i next rest'
      split
      · split
        · exact h.reinitialize true
        · rename_i slot hslot
          obtain ⟨w, hw, -⟩ := findWatch_eq_some hslot
          rw [hw]
          have hlive : Live { m with cache := rewriteCachedPaths m.cache path ev.name w.path next.name } :=
            ⟨h.cache.rewrite _ _ _ _, h.ignored, h.root⟩
          refine hlive.toLoop ?_ true
          have hbuf' : Buffer (next :: rest') (numRead - ev.size) true := by
            obtain ⟨hnum, hshaped⟩ := hrest
            rcases hnum with hnum | ⟨heq, -⟩
            · exact ⟨Or.inl hnum, nofun, hshaped⟩
            · nomatch heq
          exact hbuf'.tail
      · exact hzap _
  · rename_i hlt
    split
    · exact hzap _
    · rename_i hne
      have hnil : rest = [] := by
        by_contra hne'
        exact hlt (hmore.mpr hne')
      subst hnil
      have htrue : firstTry = true := by simpa using hne
      exact (h.at (.more [ev] numRead true)).sound
        ⟨hfirst htrue, ev, rfl, hbuf.2.2 ev List.mem_cons_self⟩

/-- An event that was not looked up needs no slot. -/
theorem Shaped.lookedUp (h : Shaped ev) (hlook : ¬ (ev.wd ≠ -1 ∧ ev.has IN_IGNORED = false)) :
    ev.mask = IN_Q_OVERFLOW ∨ ev.mask = IN_IGNORED := by
  by_cases hwd : ev.wd = -1
  · exact Or.inl (h.1 hwd)
  · refine Or.inr (h.2 ?_)
    by_contra hign
    exact hlook ⟨hwd, Bool.not_eq_true _ ▸ hign⟩

/-- **One event.** -/
theorem Live.processNextInotifyEvent (h : Live m) (hbuf : Buffer (ev :: rest) numRead firstTry) :
    Sound (m.processNextInotifyEvent ev rest numRead firstTry) := by
  have hrest := hbuf.tail
  by_cases hlook : ev.wd ≠ -1 ∧ ev.has IN_IGNORED = false
  · obtain ⟨hwd, hign⟩ := hlook
    unfold Monitor.processNextInotifyEvent
    by_cases hfound : findWatch m.cache ev.wd = none
    · rw [if_pos ⟨hwd, hign, hfound⟩]
      exact h.reinitialize true
    rw [if_neg fun h => hfound h.2.2]
    have hmark : ∀ {slot : Nat} {w : Watch}, m.cache[slot]? = some w → w.wd = ev.wd → ∀ m' : Monitor,
        Live m' → m'.cache = m.cache →
        Sound ({ m' with cache := markCacheSlotEmpty m'.cache slot }.toLoop rest (numRead - ev.size) true) := by
      intro slot w hw hwd' m' hm' hc
      have hcache : CacheSound (markCacheSlotEmpty m'.cache slot) := by
        rw [hc]
        rcases h.cache.free w (List.mem_of_getElem? hw) with hnn | rfl
        · exact h.cache.mark hw hnn
        · exact absurd hwd'.symm hwd
      have hlive : Live { m' with cache := markCacheSlotEmpty m'.cache slot } :=
        ⟨hcache, hm'.ignored, hm'.root⟩
      exact hlive.toLoop hrest true
    split
    · -- a directory has appeared
      obtain ⟨slot, w, -, -, heq⟩ := withSlot_cases hwd hign hfound
      rw [heq]
      dsimp only
      split
      · exact h.toLoop hrest true
      · exact (h.at (.walk _ (.event rest (numRead - ev.size)))).sound hrest
    split
    · obtain ⟨slot, w, hw, hwd', heq⟩ := withSlot_cases hwd hign hfound
      rw [heq]
      dsimp only
      split
      · exact h.zapRootDirPath (hmark hw hwd')
      · exact hmark hw hwd' m h rfl
    split
    · obtain ⟨slot, w, -, -, heq⟩ := withSlot_cases hwd hign hfound
      rw [heq]
      exact h.movedFrom hbuf _
    split
    · exact h.reinitialize true
    split
    · obtain ⟨slot, w, hw, hwd', heq⟩ := withSlot_cases hwd hign hfound
      rw [heq]
      exact hmark hw hwd' m h rfl
    split
    · obtain ⟨slot, w, -, -, heq⟩ := withSlot_cases hwd hign hfound
      rw [heq]
      split
      · exact h.zapRootDirPath fun m' hm' _ => hm'.zapSubtree (.event rest _) hrest _ 0
      · exact h.toLoop hrest true
    · exact h.toLoop hrest true
  · -- an overflow, or the end of a watch
    have hshaped := (hbuf.2.2 ev List.mem_cons_self).lookedUp hlook
    unfold Monitor.processNextInotifyEvent Event.has
    rw [if_neg fun h => hlook ⟨h.1, h.2.1⟩]
    rcases hshaped with hmask | hmask
    · rw [hmask]
      exact h.reinitialize true
    · rw [hmask]
      exact h.toLoop hrest true

/-- A command, given while the program waits for input. -/
theorem Live.executeCommand (h : Live m) : ∀ cmd : Command, m.pc = .select → Sound (m.executeCommand cmd)
  | .add path, _ => h.zapSubtree (.add path) trivial path 0
  | .zap path, _ => h.zapSubtree .command trivial path 0
  | .rebuild, _ => h.reinitialize false
  | .quit, _ => h.exit
  | .other, hpc => by
    refine h.sound ?_
    unfold PcSound
    rw [hpc]
    trivial

/-- **One step.** -/
theorem Sound.step {a : Answer} (h : Sound m) (ha : Kernel m a) (hstep : m.step a = some m') :
    Sound m' := by
  have hpc := h.pc
  unfold PcSound at hpc
  unfold Monitor.step at hstep
  have hlive : Live m := by
    refine h.live fun hex => ?_
    rw [hex] at hstep
    nomatch hstep
  split at hstep
  · -- `reinitialize`
    cases hstep
    have hempty : Live { m with cache := [] } := ⟨CacheSound.nil, hlive.ignored, hlive.root⟩
    exact hempty.build _
  · cases hstep
    exact hlive.exit
  · cases hstep
    exact hlive.executeCommand _ (by assumption)
  · rename_i evs heq
    split at hstep
    · nomatch hstep
    · cases hstep
      exact hlive.toLoop ⟨Or.inl rfl, ha⟩ true
  · cases hstep
    exact hlive.exit
  · rename_i buf numRead firstTry heq
    rw [heq] at hpc
    split at hstep
    · exact absurd rfl hpc.2.1
    · cases hstep
      exact hlive.processNextInotifyEvent hpc
  · -- the second read
    rename_i buf numRead armed evs heq
    rw [heq] at hpc
    obtain ⟨hnum, ev, rfl, hshaped⟩ := hpc
    split at hstep
    · nomatch hstep
    · cases hstep
      refine hlive.toLoop ⟨Or.inl ?_, ?_⟩ false
      · rw [sizes_append]
        omega
      · intro e he
        rcases List.mem_append.mp he with he | he
        · rw [List.mem_singleton.mp he]
          exact hshaped
        · exact ha e he
  · rename_i buf numRead armed heq
    rw [heq] at hpc
    obtain ⟨hnum, ev, rfl, hshaped⟩ := hpc
    cases hstep
    have hlen : 16 ≤ sizes [ev] := by
      rw [sizes_cons]
      exact Nat.le_trans (Nat.le_add_right 16 ev.len) (Nat.le_add_right _ _)
    have hpos : 0 < numRead + -1 := by omega
    refine Live.sound (hlive.at _) ?_
    unfold PcSound Monitor.toLoop
    rw [if_pos hpos]
    refine ⟨Or.inr ⟨rfl, ⟨ev, rfl⟩, by omega⟩, nofun, ?_⟩
    intro e he
    rw [List.mem_singleton.mp he]
    exact hshaped
  · rename_i buf numRead heq
    cases hstep
    rw [heq] at hpc
    exact (hlive.at _).sound hpc
  · cases hstep
    exact hlive.exit
  · -- a directory is watched
    rename_i path stack ret wd due heq
    cases hstep
    rw [heq] at hpc
    have hcache : CacheSound (m.traverseTree path wd).cache := by
      unfold Monitor.traverseTree
      split
      · exact hlive.cache
      · rename_i hnone
        exact hlive.cache.add ha (Option.not_isSome_iff_eq_none.mp hnone) path
    have hsame : (m.traverseTree path wd).ignoreRootDirs = m.ignoreRootDirs ∧
        (m.traverseTree path wd).rootDirPaths = m.rootDirPaths := by
      unfold Monitor.traverseTree
      split
      · exact ⟨rfl, rfl⟩
      · exact ⟨rfl, rfl⟩
    refine ⟨hcache, ?_, Or.inr ?_, ?_⟩
    · show (m.traverseTree path wd).ignoreRootDirs = (m.traverseTree path wd).rootDirPaths.count none
      rw [hsame.1, hsame.2]
      exact hlive.ignored
    · show ∃ r, some r ∈ (m.traverseTree path wd).rootDirPaths
      rw [hsame.2]
      exact hlive.root
    · exact hpc
  · rename_i path stack ret due heq
    cases hstep
    rw [heq] at hpc
    exact (hlive.at _).sound hpc
  · cases hstep
    exact hlive.exit
  · rename_i path due stack ret name heq
    cases hstep
    rw [heq] at hpc
    exact (hlive.at _).sound hpc
  · cases hstep
    exact h
  · rename_i path due stack ret heq
    cases hstep
    rw [heq] at hpc
    unfold Monitor.toWalk
    split
    · exact hlive.walked hpc
    · exact (hlive.at _).sound hpc
  · rename_i stack ret heq
    cases hstep
    rw [heq] at hpc
    exact hlive.walked hpc
  · -- a watch is removed
    rename_i path slot ret heq
    cases hstep
    rw [heq] at hpc
    obtain ⟨⟨w, hw, hwd, -⟩, hret⟩ := hpc
    have hlive' : Live { m with cache := markCacheSlotEmpty m.cache slot } :=
      ⟨hlive.cache.mark hw hwd, hlive.ignored, hlive.root⟩
    exact hlive'.zapSubtree ret hret _ _
  · cases hstep
    exact hlive.zapFailed _
  · nomatch hstep

end

end LinuxInterface.InotifyDtree
