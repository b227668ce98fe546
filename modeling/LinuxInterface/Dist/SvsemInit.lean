/-
  svsem/svsem_good_init.c and svsem_bad_init.c (tlpi-dist): processes that use one semaphore, each of
  them creating and initialising it if it is not there.

  1. **The programs** — one step is one system call.  The set is there or not; of a new one the value
     is anything, and nothing has operated on it.  Every call can fail, which ends the process.

  2. **The good way** — until the creator has carried out its operation, `sem_otime` is 0 and the
     others wait: nobody operates on a semaphore that is not initialised, and the value is the sum of
     the operations made (`good_init_exact`).

  3. **The bad way** — an operation before the initialisation is lost, but never the creator's own:
     `bad_init_bounds`.
-/
import LinuxInterface.Base.Interleave
import LinuxInterface.Base.Mutex
import LinuxInterface.Base.SysvSem
import Mathlib.Data.Fintype.BigOperators

namespace LinuxInterface.SvsemInit

open LinuxInterface

/-! ## The programs -/

/-- A semaphore set; `operated` says that `sem_otime` is not 0. -/
structure SemSet where
  vals : SemVals
  operated : Bool

/-- The call a process makes next; at `stat` it has its `j`. -/
inductive Pc where
  | create | setval | dummy | get | stat (j : Nat) | op | finished | dead
  deriving DecidableEq

/-- The answer to a call; `val` is the value of the semaphore if the call creates it. -/
inductive Answer where
  | ok (val : Nat)
  | fail

def maxTries : Nat := 10

def Pc.creating : Pc → Bool
  | .setval | .dummy => true
  | _ => false

def Pc.ended : Pc → Bool
  | .finished | .dead => true
  | _ => false

variable {ι : Type}

/-- One step of svsem_good_init.c; `semOp i` is the argument of process `i` as `sem_op` holds it,
    that is, after the conversion to a `short`. -/
def goodInit (semOp : ι → Int) (i : ι) (a : Answer) (pc : Pc) (set : Option SemSet) :
    Option (Pc × Option SemSet) :=
  match a with
  | .fail => if pc.ended then none else some (.dead, set)
  | .ok val =>
    match pc, set with
    | .create, none => some (.setval, some ⟨fun _ => val, false⟩)
    | .create, some s => some (.get, some s)
    | .setval, some s => some (.dummy, some { s with vals := setval s.vals 0 0 })
    | .dummy, some s => (semop s.vals [⟨0, 0⟩]).map fun vals => (.op, some ⟨vals, true⟩)
    | .get, some s => some (.stat 0, some s)
    | .stat j, some s =>
      if s.operated then some (.op, some s)
      else if j + 1 < maxTries then some (.stat (j + 1), some s)
      else some (.dead, some s)
    | .op, some s => (semop s.vals [⟨0, semOp i⟩]).map fun vals => (.finished, some ⟨vals, true⟩)
    -- a process that has ended; nobody removes the set
    | _, _ => none

/-- One step of svsem_bad_init.c. -/
def badInit (_ : ι) (a : Answer) (pc : Pc) (set : Option SemSet) : Option (Pc × Option SemSet) :=
  match a with
  | .fail => if pc.ended then none else some (.dead, set)
  | .ok val =>
    match pc, set with
    | .create, none => some (.setval, some ⟨fun _ => val, false⟩)
    | .create, some s => some (.get, some s)
    | .setval, some s => some (.op, some { s with vals := setval s.vals 0 0 })
    | .get, some s => some (.op, some s)
    | .op, some s => (semop s.vals [⟨0, 1⟩]).map fun vals => (.finished, some ⟨vals, true⟩)
    | _, _ => none

/-- There is no semaphore yet. -/
def start (ι : Type) : Pool ι Pc (Option SemSet) := ⟨fun _ => .create, none⟩

variable {semOp : ι → Int} {i : ι} {a : Answer} {pc pc' : Pc} {set set' : Option SemSet}

/-! ## The good way -/

/-- What a step of svsem_good_init.c can be, for the operation `x`. -/
inductive GoodStep (x : Int) : Pc → Option SemSet → Pc → Option SemSet → Prop where
  | die {pc : Pc} {set : Option SemSet} (h : pc ≠ .finished) : GoodStep x pc set .dead set
  | create (val : Nat) : GoodStep x .create none .setval (some ⟨fun _ => val, false⟩)
  | get {s : SemSet} : GoodStep x .create (some s) .get (some s)
  | wait {s : SemSet} {pc : Pc} (j : Nat) (h : pc = .get ∨ ∃ j, pc = .stat j) :
      GoodStep x pc (some s) (.stat j) (some s)
  | seen {s : SemSet} (j : Nat) (h : s.operated = true) : GoodStep x (.stat j) (some s) .op (some s)
  | setval {s : SemSet} : GoodStep x .setval (some s) .dummy (some { s with vals := setval s.vals 0 0 })
  | dummy {s : SemSet} {vals : SemVals} (h : semop s.vals [⟨0, 0⟩] = some vals) :
      GoodStep x .dummy (some s) .op (some ⟨vals, true⟩)
  | operate {s : SemSet} {vals : SemVals} (h : semop s.vals [⟨0, x⟩] = some vals) :
      GoodStep x .op (some s) .finished (some ⟨vals, true⟩)

theorem goodInit_step (h : goodInit semOp i a pc set = some (pc', set')) :
    GoodStep (semOp i) pc set pc' set' := by
  unfold goodInit at h
  cases a with
  | fail =>
    dsimp only at h
    split at h
    · cases h
    · next hend =>
      cases h
      exact .die fun hpc => hend (by rw [hpc]; rfl)
  | ok val =>
    dsimp only at h
    split at h
    · cases h
      exact .create val
    · cases h
      exact .get
    · cases h
      exact .setval
    · obtain ⟨vals, hvals, heq⟩ := Option.map_eq_some_iff.mp h
      cases heq
      exact .dummy hvals
    · cases h
      exact .wait 0 (Or.inl rfl)
    · next j s =>
      split at h
      · next hop =>
        cases h
        exact .seen j hop
      split at h
      · cases h
        exact .wait (j + 1) (Or.inr ⟨j, rfl⟩)
      · cases h
        exact .die nofun
    · obtain ⟨vals, hvals, heq⟩ := Option.map_eq_some_iff.mp h
      cases heq
      exact .operate hvals
    · cases h

/-- Where a process can be: before there is a set, while it is not initialised, and afterwards. -/
def At : Option SemSet → Pc → Prop
  | none, pc => pc = .create ∨ pc = .dead
  | some ⟨vals, false⟩, pc => pc ≠ .op ∧ pc ≠ .finished ∧ (pc = .dummy → vals 0 = 0)
  | some ⟨_, true⟩, pc => pc.creating = false

/-- What a process has added to the semaphore. -/
def added (x : Int) (pc : Pc) : Int := if pc = .finished then x else 0

theorem added_of_ne {x : Int} (h : pc ≠ .finished) : added x pc = 0 := if_neg h

/-- The step of one process, from where it can be: where it comes to, and what becomes of the rest. -/
structure Moves (x : Int) (pc : Pc) (set : Option SemSet) (pc' : Pc) (set' : Option SemSet) : Prop where
  at' : At set' pc'
  /-- The others stay where they can be; in the one case that matters the process is the creator. -/
  others : ∀ q, At set q → (pc.creating = true → q.creating = false) → At set' q
  lock : set = none ∧ pc'.creating = true ∨ pc.creating = true ∧ pc'.creating = false
    ∨ pc'.creating = pc.creating
  /-- The value moves with what is added, or it is the first value there is. -/
  value : ∀ s', set' = some s' → s'.operated = true →
    (∃ s, set = some s ∧ s.operated = true ∧ (s'.vals 0 : Int) + added x pc = s.vals 0 + added x pc')
    ∨ (s'.vals 0 = 0 ∧ added x pc' = 0 ∧ ∃ vals, set = some ⟨vals, false⟩)

theorem GoodStep.moves {x : Int} (h : GoodStep x pc set pc' set') (hat : At set pc) :
    Moves x pc set pc' set' := by
  cases h with
  | die hne =>
    refine ⟨?_, fun q hq _ => hq, ?_, fun s' hs' hop => Or.inl ⟨s', hs', hop, ?_⟩⟩
    · match set with
      | none => exact Or.inr rfl
      | some ⟨_, false⟩ => exact ⟨nofun, nofun, nofun⟩
      | some ⟨_, true⟩ => rfl
    · cases hc : pc.creating with
      | true => exact Or.inr (Or.inl ⟨rfl, rfl⟩)
      | false => exact Or.inr (Or.inr rfl)
    · rw [added_of_ne hne]
      rfl
  | create val =>
    refine ⟨⟨nofun, nofun, nofun⟩, fun q hq _ => ?_, Or.inl ⟨rfl, rfl⟩, ?_⟩
    · rcases hq with rfl | rfl
      · exact ⟨nofun, nofun, nofun⟩
      · exact ⟨nofun, nofun, nofun⟩
    · rintro s' ⟨⟩ hop
      nomatch hop
  | @get s =>
    refine ⟨?_, fun q hq _ => hq, Or.inr (Or.inr rfl), fun s' hs' hop => Or.inl ⟨s', hs', hop, rfl⟩⟩
    match s with
    | ⟨_, false⟩ => exact ⟨nofun, nofun, nofun⟩
    | ⟨_, true⟩ => rfl
  | @wait s pc j hpc =>
    have hne : pc ≠ .finished := by
      rintro rfl
      rcases hpc with h | ⟨j, h⟩ <;> cases h
    have hcreating : pc.creating = false := by
      rcases hpc with rfl | ⟨j, rfl⟩ <;> rfl
    refine ⟨?_, fun q hq _ => hq, Or.inr (Or.inr hcreating.symm), fun s' hs' hop =>
      Or.inl ⟨s', hs', hop, ?_⟩⟩
    · match s with
      | ⟨_, false⟩ => exact ⟨nofun, nofun, nofun⟩
      | ⟨_, true⟩ => rfl
    · rw [added_of_ne hne]
      rfl
  | @seen s j hop =>
    refine ⟨?_, fun q hq _ => hq, Or.inr (Or.inr rfl), fun s' hs' hop => Or.inl ⟨s', hs', hop, rfl⟩⟩
    obtain ⟨vals, operated⟩ := s
    obtain rfl : operated = true := hop
    rfl
  | @setval s =>
    match s, hat with
    | ⟨vals, false⟩, _ =>
      refine ⟨⟨nofun, nofun, fun _ => Function.update_self _ _ _⟩, fun q hq _ => ?_,
        Or.inr (Or.inr rfl), ?_⟩
      · exact ⟨hq.1, hq.2.1, fun _ => Function.update_self _ _ _⟩
      · rintro s' ⟨⟩ hop
        nomatch hop
    | ⟨vals, true⟩, hat => nomatch hat
  | @dummy s vals' hvals =>
    match s, hat, hvals with
    | ⟨vals, false⟩, hat, hvals =>
      -- the creator sees its own 0, and is alone
      have hzero : vals 0 = 0 := hat.2.2 rfl
      have hval := semop_value hvals
      refine ⟨rfl, fun q _ hq => hq rfl, Or.inr (Or.inl ⟨rfl, rfl⟩), ?_⟩
      rintro s' ⟨⟩ hop
      refine Or.inr ⟨?_, added_of_ne nofun, vals, rfl⟩
      show vals' 0 = 0
      have hval' : (vals' 0 : Int) = vals 0 + 0 := hval
      omega
    | ⟨vals, true⟩, hat, _ => nomatch hat
  | @operate s vals' hvals =>
    match s, hat, hvals with
    | ⟨vals, false⟩, hat, _ => exact absurd rfl hat.1
    | ⟨vals, true⟩, _, hvals =>
      refine ⟨rfl, fun q hq _ => hq, Or.inr (Or.inr rfl), ?_⟩
      rintro s' ⟨⟩ hop
      refine Or.inl ⟨⟨vals, true⟩, rfl, rfl, ?_⟩
      have hval : (vals' 0 : Int) = vals 0 + x := semop_value hvals
      show (vals' 0 : Int) + 0 = vals 0 + x
      omega

section Good

variable [Fintype ι]

structure Inv (semOp : ι → Int) (p : Pool ι Pc (Option SemSet)) : Prop where
  creator : ∃ owner, Owned (fun i => (p.locals i).creating) owner
  each : ∀ i, At p.shared (p.locals i)
  value : ∀ s, p.shared = some s → s.operated = true →
    (s.vals 0 : Int) = ∑ i, added (semOp i) (p.locals i)

theorem inv_start (semOp : ι → Int) : Inv semOp (start ι) where
  creator := ⟨none, owned_start fun _ => rfl⟩
  each := fun _ => Or.inl rfl
  value := fun _ hs _ => nomatch hs

variable [DecidableEq ι]

abbrev goodStep (semOp : ι → Int) (p : Pool ι Pc (Option SemSet)) (c : ι × Answer) :
    Option (Pool ι Pc (Option SemSet)) :=
  p.step (goodInit semOp) c

/-- **One step of the pool.** -/
theorem Inv.step {p p' : Pool ι Pc (Option SemSet)} {c : ι × Answer} (h : Inv semOp p)
    (hstep : goodStep semOp p c = some p') : Inv semOp p' := by
  obtain ⟨i, a⟩ := c
  obtain ⟨pc', set', hthr, rfl⟩ := Pool.step_eq hstep
  have hmoves := (goodInit_step hthr).moves (h.each i)
  obtain ⟨owner, howner⟩ := h.creator
  refine ⟨?_, forall_update (J := fun _ pc => At set' pc) hmoves.at' fun j hj => ?_, ?_⟩
  · have hlock : ∃ owner', LockStep i (p.locals i).creating pc'.creating owner owner' := by
      rcases hmoves.lock with ⟨hnone, hin⟩ | ⟨hin, hout⟩ | hsame
      · -- before there is a set nobody creates it
        refine ⟨some i, .acquire ?_ hin rfl⟩
        cases howner' : owner with
        | none => rfl
        | some k =>
          have hk : (p.locals k).creating = true := (howner k).mpr howner'
          have hat : At p.shared (p.locals k) := h.each k
          have hset : p.shared = none := hnone
          rw [hset] at hat
          rcases hat with hpc | hpc <;> rw [hpc] at hk <;> nomatch hk
      · exact ⟨none, .release hin hout rfl⟩
      · exact ⟨owner, .keep hsame rfl⟩
    obtain ⟨owner', hlock⟩ := hlock
    exact ⟨owner', Owned.step (f := Pc.creating) howner hlock⟩
  · refine hmoves.others _ (h.each j) fun hin => ?_
    exact Bool.eq_false_iff.mpr fun hin' => hj (howner.unique hin' hin)
  · intro s' hs' hop
    have hsum := sum_update_of_mem (fun j pc => added (semOp j) pc) p.locals pc' (Finset.mem_univ i)
    show (s'.vals 0 : Int) = ∑ j, added (semOp j) (Function.update p.locals i pc' j)
    rcases hmoves.value s' hs' hop with ⟨s, hs, hops, hval⟩ | ⟨hzero, hadd, vals, hset⟩
    · have hold := h.value s hs hops
      have hval' : (s'.vals 0 : Int) + added (semOp i) (p.locals i)
        = s.vals 0 + added (semOp i) pc' := hval
      omega
    · -- nobody has operated before
      have hnone : ∀ j, added (semOp j) (p.locals j) = 0 := by
        intro j
        have hat := h.each j
        rw [show p.shared = some ⟨vals, false⟩ from hset] at hat
        exact added_of_ne hat.2.1
      have hadd' : added (semOp i) pc' = 0 := hadd
      have hold : ∑ j, added (semOp j) (p.locals j) = 0 := Finset.sum_eq_zero fun j _ => hnone j
      have hi := hnone i
      omega

/-- **The good way is exact**: in every run of any number of processes, whichever of them creates the
    semaphore and whatever its first value, a process that comes to its operation, or is past it,
    finds it initialised, and from then on the value is the sum of the operations made.  The creator is
    never blocked by its own. -/
theorem good_init_exact {p : Pool ι Pc (Option SemSet)} (h : Reach (goodStep semOp) Any (start ι) p) :
    (∀ i, p.locals i = .op ∨ p.locals i = .finished →
      ∃ s, p.shared = some s ∧ s.operated = true
        ∧ (s.vals 0 : Int) = ∑ j, if p.locals j = .finished then semOp j else 0)
    ∧ ∀ i val, p.locals i = .dummy → (goodStep semOp p (i, .ok val)).isSome = true := by
  have hinv : Inv semOp p := h.inv (inv_start semOp) fun _ _ _ hI _ hstep => hI.step hstep
  refine ⟨fun i hi => ?_, fun i val hi => ?_⟩
  · have hat := hinv.each i
    cases hs : p.shared with
    | none =>
      rw [hs] at hat
      rcases hi with hi | hi <;> rw [hi] at hat <;> rcases hat with h | h <;> cases h
    | some s =>
      refine ⟨s, rfl, ?_⟩
      have hop : s.operated = true := by
        obtain ⟨vals, operated⟩ := s
        cases operated with
        | true => rfl
        | false =>
          rw [hs] at hat
          rcases hi with hi | hi
          · exact absurd hi hat.1
          · exact absurd hi hat.2.1
      exact ⟨hop, hinv.value s hs hop⟩
  · have hat := hinv.each i
    rw [hi] at hat
    match hs : p.shared, hat with
    | none, hat => rcases hat with h | h <;> cases h
    | some ⟨vals, true⟩, hat => nomatch hat
    | some ⟨vals, false⟩, hat =>
      have hzero : vals 0 = 0 := hat.2.2 rfl
      have hsem : semop vals [⟨0, 0⟩] = some vals := by
        rw [semop_singleton, semopOne]
        dsimp only
        rw [if_pos rfl, if_pos hzero]
      simp [goodStep, Pool.step, goodInit, hi, hs, hsem]

end Good

/-- Process 0 creates the semaphore with the value 7 and process 1 has to look twice; they add 3 and take
    2. -/
theorem good_init_exact_two : ∃ p : Pool Bool Pc (Option SemSet),
    (∀ i, p.locals i = .finished) ∧ ∃ s, p.shared = some s ∧ s.operated = true
      ∧ (s.vals 0 : Int) = ∑ j, if p.locals j = .finished then (if j then 3 else -2) else 0 := by
  have hrun : (runList (goodStep fun j => if j then 3 else -2) Any (start Bool)
      [(true, .ok 7), (false, .ok 0), (false, .ok 0), (false, .ok 0), (true, .ok 0), (true, .ok 0),
        (false, .ok 0), (true, .ok 0), (false, .ok 0)]).map
          (fun p => (p.locals false, p.locals true)) = some (.finished, .finished) := by decide +kernel
  obtain ⟨p, hp, hobs⟩ := Reach.of_observed hrun
  obtain ⟨hfalse, htrue⟩ := Prod.mk.inj hobs
  exact ⟨p, Bool.forall_bool.mpr ⟨hfalse, htrue⟩, (good_init_exact hp).1 false (Or.inr hfalse)⟩

/-! ## The bad way -/

/-- What a step of svsem_bad_init.c can be. -/
inductive BadStep : Pc → Option SemSet → Pc → Option SemSet → Prop where
  | die {pc : Pc} {set : Option SemSet} (h : pc ≠ .finished) : BadStep pc set .dead set
  | create (val : Nat) : BadStep .create none .setval (some ⟨fun _ => val, false⟩)
  | get {s : SemSet} {pc pc' : Pc} (h : pc = .create ∨ pc = .get) (h' : pc' = .get ∨ pc' = .op) :
      BadStep pc (some s) pc' (some s)
  | setval {s : SemSet} : BadStep .setval (some s) .op (some { s with vals := setval s.vals 0 0 })
  | operate {s s' : SemSet} (h : s'.vals 0 = s.vals 0 + 1) : BadStep .op (some s) .finished (some s')

theorem badInit_step (h : badInit i a pc set = some (pc', set')) : BadStep pc set pc' set' := by
  unfold badInit at h
  cases a with
  | fail =>
    dsimp only at h
    split at h
    · cases h
    · next hend =>
      cases h
      exact .die fun hpc => hend (by rw [hpc]; rfl)
  | ok val =>
    dsimp only at h
    split at h
    · cases h
      exact .create val
    · cases h
      exact .get (Or.inl rfl) (Or.inl rfl)
    · cases h
      exact .setval
    · cases h
      exact .get (Or.inr rfl) (Or.inr rfl)
    · rw [semop_give] at h
      cases h
      exact .operate (by simp)
    · cases h

section Bad

variable [Fintype ι]

/-- The processes that are through. -/
def finishedCount (pcs : ι → Pc) : Nat := ∑ i, if pcs i = .finished then 1 else 0

/-- The semaphore is still to be initialised, by a process that lives or not; or the value counts some
    of the operations, and the initialising process has not operated yet or is among them. -/
structure Count (p : Pool ι Pc (Option SemSet)) : Prop where
  absent : p.shared = none → ∀ i, p.locals i ≠ .finished
  present : ∀ s, p.shared = some s →
    (∃ i, p.locals i = .setval ∨ p.locals i = .dead)
    ∨ (s.vals 0 ≤ finishedCount p.locals ∧ ((∃ i, p.locals i = .op ∨ p.locals i = .dead) ∨ 1 ≤ s.vals 0))

theorem count_start : Count (start ι) where
  absent := fun _ _ => nofun
  present := fun _ hs => nomatch hs

variable [DecidableEq ι]

abbrev badStep (p : Pool ι Pc (Option SemSet)) (c : ι × Answer) :
    Option (Pool ι Pc (Option SemSet)) :=
  p.step badInit c

/-- **One step of the pool.** -/
theorem Count.step {p p' : Pool ι Pc (Option SemSet)} {c : ι × Answer} (h : Count p)
    (hstep : badStep p c = some p') : Count p' := by
  obtain ⟨i, a⟩ := c
  obtain ⟨pc', set', hthr, rfl⟩ := Pool.step_eq hstep
  have hsum : finishedCount (Function.update p.locals i pc') + (if p.locals i = .finished then 1 else 0)
      = finishedCount p.locals + (if pc' = .finished then 1 else 0) :=
    sum_update_of_mem (fun _ pc => if pc = Pc.finished then 1 else 0) p.locals pc' (Finset.mem_univ i)
  have hown : Function.update p.locals i pc' i = pc' := Function.update_self _ _ _
  dsimp only at hthr ⊢
  have hcases := badInit_step hthr
  generalize hset : p.shared = set at hcases
  generalize hpc : p.locals i = pc at hcases hsum
  cases hcases with
  | die hne =>
    refine ⟨fun hnone => ?_, fun s _ => Or.inl ⟨i, Or.inr hown⟩⟩
    exact forall_update (J := fun _ pc => pc ≠ Pc.finished) nofun fun j _ => h.absent (hset.trans hnone) j
  | create val => exact ⟨nofun, fun s _ => Or.inl ⟨i, Or.inl hown⟩⟩
  | @get s pc pc' hbefore hafter =>
    have hne : pc ≠ .finished ∧ ¬ (pc = .setval ∨ pc = .dead) ∧ ¬ (pc = .op ∨ pc = .dead) := by
      rcases hbefore with rfl | rfl <;> decide
    have hne' : pc' ≠ .finished := by
      rcases hafter with rfl | rfl <;> decide
    rw [if_neg hne.1, if_neg hne'] at hsum
    refine ⟨nofun, ?_⟩
    rintro s' ⟨⟩
    rcases h.present s hset with hex | ⟨hle, hex | hpos⟩
    · exact Or.inl (exists_update (J := fun pc => pc = Pc.setval ∨ pc = Pc.dead) hex (hpc ▸ hne.2.1))
    · refine Or.inr ⟨?_, Or.inl ?_⟩
      · show s.vals 0 ≤ finishedCount (Function.update p.locals i pc')
        omega
      · exact exists_update (J := fun pc => pc = Pc.op ∨ pc = Pc.dead) hex (hpc ▸ hne.2.2)
    · refine Or.inr ⟨?_, Or.inr hpos⟩
      show s.vals 0 ≤ finishedCount (Function.update p.locals i pc')
      omega
  | @setval s =>
    refine ⟨nofun, ?_⟩
    rintro s' ⟨⟩
    have hzero : (LinuxInterface.setval s.vals 0 0) 0 = 0 := Function.update_self _ _ _
    refine Or.inr ⟨?_, Or.inl ⟨i, Or.inl hown⟩⟩
    show (LinuxInterface.setval s.vals 0 0) 0 ≤ _
    omega
  | @operate s s₁ hval =>
    rw [if_neg (show Pc.op ≠ .finished by decide), if_pos rfl] at hsum
    refine ⟨nofun, ?_⟩
    rintro s' ⟨⟩
    rcases h.present s hset with hex | ⟨hle, -⟩
    · refine Or.inl (exists_update (J := fun pc => pc = Pc.setval ∨ pc = Pc.dead) hex ?_)
      rw [hpc]
      decide
    · refine Or.inr ⟨?_, Or.inr ?_⟩
      · show s₁.vals 0 ≤ finishedCount (Function.update p.locals i .finished)
        omega
      · omega

/-- **The bad way loses operations**, but not all: when `n` processes have each added 1, the value is
    between 1 and `n`. -/
theorem bad_init_bounds [Nonempty ι] {p : Pool ι Pc (Option SemSet)}
    (h : Reach badStep Any (start ι) p) (hend : ∀ i, p.locals i = .finished) :
    ∃ s, p.shared = some s ∧ 1 ≤ s.vals 0 ∧ s.vals 0 ≤ Fintype.card ι := by
  have hinv : Count p := h.inv count_start fun _ _ _ hI _ hstep => hI.step hstep
  cases hs : p.shared with
  | none => exact absurd (hend (Classical.arbitrary ι)) (hinv.absent hs _)
  | some s =>
    refine ⟨s, rfl, ?_⟩
    rcases hinv.present s hs with ⟨i, hi | hi⟩ | ⟨hle, ⟨i, hi | hi⟩ | hpos⟩
    · exact nomatch (hend i).symm.trans hi
    · exact nomatch (hend i).symm.trans hi
    · exact nomatch (hend i).symm.trans hi
    · exact nomatch (hend i).symm.trans hi
    · have hcount : finishedCount p.locals = Fintype.card ι := by
        unfold finishedCount
        rw [Finset.sum_const_nat fun i _ => if_pos (hend i), Finset.card_univ, Nat.mul_one]
      exact ⟨hpos, hcount ▸ hle⟩

end Bad

/-- The second process operates before the first has initialised: of two operations one is left. -/
theorem bad_init_bounds_lost : ∃ p : Pool Bool Pc (Option SemSet), (∀ i, p.locals i = .finished)
    ∧ (∃ s, p.shared = some s ∧ 1 ≤ s.vals 0 ∧ s.vals 0 ≤ Fintype.card Bool)
    ∧ p.shared.map (fun s => s.vals 0) = some 1 := by
  have hrun : (runList badStep Any (start Bool)
      [(false, .ok 0), (true, .ok 0), (true, .ok 0), (true, .ok 0), (false, .ok 0), (false, .ok 0)]).map
        (fun p => (p.locals false, p.locals true, p.shared.map (fun s => s.vals 0)))
      = some (.finished, .finished, some 1) := by decide +kernel
  obtain ⟨p, hp, hobs⟩ := Reach.of_observed hrun
  obtain ⟨hfalse, hrest⟩ := Prod.mk.inj hobs
  obtain ⟨htrue, hval⟩ := Prod.mk.inj hrest
  have hend : ∀ i, p.locals i = .finished := Bool.forall_bool.mpr ⟨hfalse, htrue⟩
  exact ⟨p, hend, bad_init_bounds hp hend, hval⟩

end LinuxInterface.SvsemInit
