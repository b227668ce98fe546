/-
  The environment as a finite map.

  1. **Entries as definitions** — an entry with a `=` defines the name before the FIRST `=`
     (`nameOf`) to be what stands after it (`valueOf`); an entry without one defines nothing.
     Seen so, the environment is a list of definitions (`Base.AssocList`) in which names may
     come up several times.

  2. **The three functions** — `getenv` is `lookup`, `putenv` is `put`, and what `my_unsetenv`
     leaves is `remove`: its loop never overwrites an entry that it has not read yet
     (`write_dest`, `Compacting`, `unset_loop`).

  3. **Refinement** — `EnvMap` is the map the two functions are about.  `run_refines`: for every
     sequence of calls the results, and `getenv` after them, are those of the map.
-/
import LinuxInterface.Base.AssocList
import LinuxInterface.Ch06.Env

namespace LinuxInterface.Env

open LinuxInterface AssocList

variable {e : Proc} {k name : List UInt8} {s : CStr} {p : Nat} {cells : List (Option Nat)}

/-! ## Entries as definitions -/

/-- The name that an entry defines. -/
def nameOf (s : CStr) : Option (List UInt8) :=
  if EQUALS ∈ s.bytes then some (s.bytes.takeWhile (· ≠ EQUALS)) else none

/-- The value that an entry gives to its name. -/
def valueOf (s : CStr) : List UInt8 := (s.bytes.dropWhile (· ≠ EQUALS)).tail

/-- A text up to its first `=`, and from there on. -/
theorem cut_at_equals {r : List UInt8} (hk : EQUALS ∉ k) :
    (k ++ EQUALS :: r).takeWhile (· ≠ EQUALS) = k ∧
      (k ++ EQUALS :: r).dropWhile (· ≠ EQUALS) = EQUALS :: r := by
  induction k with
  | nil => exact ⟨rfl, rfl⟩
  | cons c k ih =>
    have hc : c ≠ EQUALS := fun h => hk (by simp [h])
    obtain ⟨ht, hd⟩ := ih fun h => hk (by simp [h])
    rw [List.cons_append, List.takeWhile_cons_of_pos (by simpa using hc),
      List.dropWhile_cons_of_pos (by simpa using hc), ht, hd]
    exact ⟨rfl, rfl⟩

theorem nameOf_append {r : List UInt8} (hk : EQUALS ∉ k) (hs : s.bytes = k ++ EQUALS :: r) :
    nameOf s = some k ∧ valueOf s = r := by
  obtain ⟨ht, hd⟩ := cut_at_equals (r := r) hk
  unfold nameOf valueOf
  rw [hs, ht, hd, if_pos (by simp)]
  exact ⟨rfl, rfl⟩

theorem startsWith_iff_append : startsWith k s = true ↔ ∃ r, s.bytes = k ++ EQUALS :: r := by
  rw [startsWith, List.isPrefixOf_iff_prefix]
  constructor
  · rintro ⟨r, hr⟩
    exact ⟨r, by rw [← hr]; simp⟩
  · rintro ⟨r, hr⟩
    exact ⟨r, by rw [hr]; simp⟩

/-- An entry starts with `k=` exactly when it defines `k`, and then the rest is the value. -/
theorem startsWith_iff (hk : EQUALS ∉ k) : startsWith k s = true ↔ nameOf s = some k := by
  rw [startsWith_iff_append]
  constructor
  · rintro ⟨r, hs⟩
    exact (nameOf_append hk hs).1
  · intro hname
    unfold nameOf at hname
    split at hname
    · next hmem =>
      obtain ⟨k', r, hs, hk'⟩ := List.eq_append_cons_of_mem hmem
      rw [hs, (cut_at_equals hk').1] at hname
      refine ⟨r, ?_⟩
      rw [hs, Option.some.inj hname]
    · nomatch hname

theorem drop_eq_valueOf (hk : EQUALS ∉ k) (h : startsWith k s = true) :
    s.bytes.drop (k.length + 1) = valueOf s := by
  obtain ⟨r, hs⟩ := startsWith_iff_append.mp h
  rw [(nameOf_append hk hs).2, hs, List.drop_append]
  simp

/-- What `my_setenv` writes. -/
theorem nameOf_definition {n v : CStr} (hn : EQUALS ∉ n.bytes) :
    nameOf (definition n v) = some n.bytes ∧ valueOf (definition n v) = v.bytes :=
  nameOf_append hn rfl

/-- `snprintf` has room for all of it. -/
theorem snprintf_definition (n v : CStr) :
    snprintf (n.strlen + v.strlen + 2) (definition n v) = definition n v := by
  unfold snprintf
  congr 1
  exact List.take_of_length_le (by simp [definition, CStr.strlen]; omega)

/-! ## `getenv`, `putenv` and the loop of `my_unsetenv` -/

/-- The name that the entry at an address defines. -/
def Proc.key (e : Proc) (p : Nat) : Option (List UInt8) := nameOf (e.str p)

/-- Its value. -/
def Proc.val (e : Proc) (p : Nat) : List UInt8 := valueOf (e.str p)

theorem startsWith_key (hk : EQUALS ∉ k) : startsWith k (e.str p) = true ↔ e.key p = some k :=
  startsWith_iff hk

theorem getenv_eq_lookup (hk : EQUALS ∉ k) : getenv e k = lookup e.key e.val k e.entries := by
  unfold getenv
  induction e.entries with
  | nil => rfl
  | cons p ps ih =>
    show _ = if e.key p = some k then some (e.val p) else lookup e.key e.val k ps
    by_cases hp : startsWith k (e.str p) = true
    · rw [List.find?_cons_of_pos (p := fun q => startsWith k (e.str q)) hp,
        if_pos ((startsWith_key hk).mp hp)]
      exact congrArg some (drop_eq_valueOf hk hp)
    · rw [List.find?_cons_of_neg (p := fun q => startsWith k (e.str q)) hp, ih,
        if_neg (fun h => hp ((startsWith_key hk).mpr h))]

theorem untilNull_append (ps : List Nat) (cs : List (Option Nat)) :
    untilNull (ps.map some ++ none :: cs) = ps := by
  induction ps with
  | nil => rfl
  | cons p ps ih => exact congrArg (p :: ·) ih

/-- An array with a `NULL` in it is its entries, the `NULL`, and the rest. -/
theorem cells_split (h : none ∈ cells) :
    cells = (untilNull cells).map some ++ none :: cells.drop ((untilNull cells).length + 1) := by
  induction cells with
  | nil => nomatch h
  | cons c cells ih =>
    cases c with
    | none => rfl
    | some p => exact congrArg (some p :: ·) (ih (by simpa using h))

theorem untilNull_putCells {hit : Nat → Bool} {key : Nat → Option (List UInt8)}
    (hhit : ∀ q, hit q = true ↔ key q = some k) (p : Nat) (cells : List (Option Nat)) :
    untilNull (putCells hit p cells) = put key k p (untilNull cells) := by
  induction cells with
  | nil => rfl
  | cons c cells ih =>
    cases c with
    | none => rfl
    | some q =>
      show untilNull (if hit q = true then some p :: cells else some q :: putCells hit p cells) =
        if key q = some k then p :: untilNull cells else q :: put key k p (untilNull cells)
      by_cases hq : hit q = true
      · rw [if_pos hq, if_pos ((hhit q).mp hq)]
        rfl
      · rw [if_neg hq, if_neg (fun h => hq ((hhit q).mpr h)), ← ih]
        rfl

theorem none_mem_putCells (hit : Nat → Bool) (p : Nat) (h : none ∈ cells) :
    none ∈ putCells hit p cells := by
  induction cells with
  | nil => nomatch h
  | cons c cells ih =>
    cases c with
    | none => exact List.mem_cons_of_mem _ List.mem_cons_self
    | some q =>
      have htail : none ∈ cells := by simpa using h
      show none ∈ if hit q = true then some p :: cells else some q :: putCells hit p cells
      by_cases hq : hit q = true
      · rw [if_pos hq]
        exact List.mem_cons_of_mem _ htail
      · rw [if_neg hq]
        exact List.mem_cons_of_mem _ (ih htail)

/-- The test of `my_unsetenv` reads no byte behind a terminator: the name is what the entry begins
    with when the byte behind it is read. -/
theorem matchesName_eq_some (e : Proc) (n : CStr) (p : Nat) : matchesName e n p =
    some (strncmp (e.str p) n n.strlen == 0 && (e.str p).charAt n.strlen == some EQUALS) := by
  unfold matchesName
  rw [strncmpFrom_eq _ _ _ 0 (Nat.zero_le _) (Nat.zero_le _), Option.bind_some]
  by_cases hpre : strncmp (e.str p) n n.strlen = 0
  · have hpre' : strncmpLoop ((e.str p).bytes.drop 0) (n.bytes.drop 0) n.strlen = 0 := hpre
    have hle : n.strlen ≤ (e.str p).strlen := ((strncmp_eq_zero _ n).mp hpre).length_le
    rw [if_pos hpre', hpre, charAt_eq hle]
    rfl
  · have hpre' : ¬ strncmpLoop ((e.str p).bytes.drop 0) (n.bytes.drop 0) n.strlen = 0 := hpre
    rw [if_neg hpre', beq_false_of_ne hpre]
    rfl

/-- The test of `my_unsetenv` finds the definitions of the name. -/
theorem matchesName_iff {n : CStr} (hn : EQUALS ∉ n.bytes) :
    matchesName e n p = some true ↔ e.key p = some n.bytes := by
  unfold Proc.key
  rw [matchesName_eq_some, Option.some_inj, ← startsWith_iff hn, startsWith,
    List.isPrefixOf_iff_prefix, Bool.and_eq_true, beq_iff_eq, beq_iff_eq, strncmp_eq_zero]
  constructor
  · rintro ⟨hpre, hchar⟩
    exact (charAt_behind (by decide) hpre).mp hchar
  · intro h
    have hpre := (List.prefix_append _ _).trans h
    exact ⟨hpre, (charAt_behind (by decide) hpre).mpr h⟩

theorem matchesName_false {n : CStr} (h : ¬ matchesName e n p = some true) :
    matchesName e n p = some false := by
  rw [matchesName_eq_some] at h ⊢
  exact congrArg some (Bool.eq_false_iff.mpr fun ht => h (congrArg some ht))

/-! ### The two-pointer loop

  In every round the array is `done ++ junk ++ rest`: `dest` stands at the end of `done`, `env` at
  the end of `junk`.  So `dest ≤ env`, and what is still to be read is untouched. -/

/-- `env` reads the first cell of the rest. -/
theorem read_env (done junk cs : List (Option Nat)) (c : Option Nat) :
    (done ++ junk ++ c :: cs)[done.length + junk.length]? = some c := by
  rw [← List.length_append, List.getElem?_append_right (Nat.le_refl _), Nat.sub_self]
  rfl

/-- A store at `dest` goes to the first cell of the junk, or to the one read when there is none. -/
theorem write_dest (done junk cs : List (Option Nat)) (c c' : Option Nat) :
    ∃ junk', junk'.length = junk.length ∧
      (done ++ junk ++ c :: cs).set done.length c' = done ++ c' :: (junk' ++ cs) := by
  rw [List.append_assoc, List.set_append_right _ _ (Nat.le_refl _), Nat.sub_self]
  cases junk with
  | nil => exact ⟨[], rfl, rfl⟩
  | cons j js => exact ⟨js ++ [c], by simp, by simp⟩

/-- An entry that is to go joins the junk. -/
theorem unsetBody_skip {n : CStr} (hp : matchesName e n p = some true)
    (done junk cs : List (Option Nat)) :
    unsetBody e n (done ++ junk ++ some p :: cs, done.length + junk.length, done.length) =
      .again (done ++ (junk ++ [some p]) ++ cs, done.length + (junk ++ [some p]).length,
        done.length) := by
  unfold unsetBody
  simp only [read_env, hp]
  simp [Nat.add_assoc]

/-- An entry that stays is moved to `dest`. -/
theorem unsetBody_keep {n : CStr} (hp : ¬ matchesName e n p = some true)
    (done junk cs : List (Option Nat)) : ∃ junk', junk'.length = junk.length ∧
    unsetBody e n (done ++ junk ++ some p :: cs, done.length + junk.length, done.length) =
      .again ((done ++ [some p]) ++ junk' ++ cs, (done ++ [some p]).length + junk'.length,
        (done ++ [some p]).length) := by
  obtain ⟨junk', hlen, hset⟩ := write_dest done junk cs (some p) (some p)
  refine ⟨junk', hlen, ?_⟩
  unfold unsetBody
  simp only [read_env, matchesName_false hp, hset, hlen, List.length_append, List.length_singleton]
  rw [Nat.add_right_comm]
  simp

/-- At the `NULL` it ends, with a `NULL` at `dest`. -/
theorem unsetBody_null (n : CStr) (done junk cs : List (Option Nat)) :
    ∃ junk', junk'.length = junk.length ∧
    unsetBody e n (done ++ junk ++ none :: cs, done.length + junk.length, done.length) =
      .leave (some (done ++ none :: (junk' ++ cs))) := by
  obtain ⟨junk', hlen, hset⟩ := write_dest done junk cs none none
  refine ⟨junk', hlen, ?_⟩
  unfold unsetBody
  simp only [read_env, hset]

/-- The entries that `my_unsetenv` keeps. -/
def kept (e : Proc) (n : CStr) (ps : List Nat) : List Nat :=
  ps.filter fun p => matchesName e n p != some true

/-- The loop is under way: it has dealt with the entries `seen`, of which the ones to keep stand at
    the beginning, and the entries `rest` and what is behind the `NULL` are as they were. -/
def Compacting (e : Proc) (n : CStr) (st : List (Option Nat) × Nat × Nat) : Prop :=
  ∃ seen rest junk, e.entries = seen ++ rest ∧ (kept e n seen).length + junk.length = seen.length ∧
    st = ((kept e n seen).map some ++ junk ++
        (rest.map some ++ none :: e.cells.drop (e.entries.length + 1)),
      ((kept e n seen).map some).length + junk.length, ((kept e n seen).map some).length)

theorem compacting_start (n : CStr) (h : none ∈ e.cells) : Compacting e n (e.cells, 0, 0) := by
  refine ⟨[], e.entries, [], rfl, rfl, ?_⟩
  show (e.cells, 0, 0) = (e.entries.map some ++ _, 0, 0)
  rw [Proc.entries, ← cells_split h]

/-- A round that goes on has dealt with one more entry. -/
theorem Compacting.next {n : CStr} {st st' : List (Option Nat) × Nat × Nat}
    (h : Compacting e n st) (hagain : unsetBody e n st = .again st') :
    Compacting e n st' ∧ e.entries.length - st'.2.1 < e.entries.length - st.2.1 := by
  obtain ⟨seen, rest, junk, hentries, hlen, rfl⟩ := h
  cases rest with
  | nil =>
    obtain ⟨_, -, hbody⟩ := unsetBody_null (e := e) n ((kept e n seen).map some) junk
      (e.cells.drop (e.entries.length + 1))
    nomatch hagain.symm.trans hbody
  | cons p rest =>
    have hseen : e.entries = (seen ++ [p]) ++ rest := by rw [hentries]; simp
    have hmore : seen.length < e.entries.length := by rw [hentries]; simp
    by_cases hp : matchesName e n p = some true
    · have hkept : kept e n (seen ++ [p]) = kept e n seen := by simp [kept, hp]
      have hbody := unsetBody_skip hp ((kept e n seen).map some) junk
        (rest.map some ++ none :: e.cells.drop (e.entries.length + 1))
      obtain rfl := Turn.again.inj (hagain.symm.trans hbody)
      refine ⟨⟨seen ++ [p], rest, junk ++ [some p], hseen, ?_, ?_⟩, ?_⟩
      · rw [hkept]
        simp only [List.length_append, List.length_singleton]
        omega
      · rw [hkept]
      · simp only [List.length_map, List.length_append, List.length_singleton]
        omega
    · have hkept : kept e n (seen ++ [p]) = kept e n seen ++ [p] := by simp [kept, hp]
      obtain ⟨junk', hjunk, hbody⟩ := unsetBody_keep hp ((kept e n seen).map some) junk
        (rest.map some ++ none :: e.cells.drop (e.entries.length + 1))
      obtain rfl := Turn.again.inj (hagain.symm.trans hbody)
      refine ⟨⟨seen ++ [p], rest, junk', hseen, ?_, ?_⟩, ?_⟩
      · rw [hkept]
        simp only [List.length_append, List.length_singleton]
        omega
      · rw [hkept, List.map_append]
        rfl
      · simp only [List.length_map, List.length_append, List.length_singleton]
        omega

/-- The round that ends it puts a `NULL` behind the entries that are kept. -/
theorem Compacting.leave {n : CStr} {st : List (Option Nat) × Nat × Nat}
    {r : Option (List (Option Nat))} (h : Compacting e n st) (hleave : unsetBody e n st = .leave r) :
    ∃ junk, (kept e n e.entries).length + junk.length = e.entries.length ∧
      r = some ((kept e n e.entries).map some ++
        none :: (junk ++ e.cells.drop (e.entries.length + 1))) := by
  obtain ⟨seen, rest, junk, hentries, hlen, rfl⟩ := h
  cases rest with
  | nil =>
    rw [List.append_nil] at hentries
    obtain ⟨junk', hjunk, hbody⟩ := unsetBody_null (e := e) n ((kept e n seen).map some) junk
      (e.cells.drop (e.entries.length + 1))
    have hkept : kept e n e.entries = kept e n seen := by rw [hentries]
    rw [hkept]
    exact ⟨junk', by rw [hentries]; omega, Turn.leave.inj (hleave.symm.trans hbody)⟩
  | cons p rest =>
    by_cases hp : matchesName e n p = some true
    · nomatch hleave.symm.trans (unsetBody_skip hp ((kept e n seen).map some) junk _)
    · obtain ⟨_, -, hbody⟩ := unsetBody_keep hp ((kept e n seen).map some) junk
        (rest.map some ++ none :: e.cells.drop (e.entries.length + 1))
      nomatch hleave.symm.trans hbody

theorem entries_length_lt (h : none ∈ e.cells) : e.entries.length < e.cells.length := by
  have hlen := congrArg List.length (cells_split h)
  rw [List.length_append, List.length_map, List.length_cons] at hlen
  show (untilNull e.cells).length < _
  omega

/-- **The loop** leaves the entries that do not match, and a `NULL` behind them. -/
theorem unset_loop (n : CStr) (h : none ∈ e.cells) :
    ∃ junk, (kept e n e.entries).length + junk.length = e.entries.length ∧
      loopN (unsetBody e n) (e.cells.length + 1) (e.cells, 0, 0) =
        some (some ((kept e n e.entries).map some ++
          none :: (junk ++ e.cells.drop (e.entries.length + 1)))) := by
  have hfuel : e.entries.length - (e.cells, 0, 0).2.1 < e.cells.length + 1 :=
    Nat.lt_succ_of_lt (entries_length_lt h)
  obtain ⟨r, st, hrun, hst, hleave⟩ := loopN_total (μ := fun st => e.entries.length - st.2.1)
    (fun _ _ hst hagain => hst.next hagain) (compacting_start n h) hfuel
  obtain ⟨junk, hlen, rfl⟩ := hst.leave hleave
  exact ⟨junk, hlen, hrun⟩

/-- What `my_unsetenv` makes of the array, for a valid name. -/
theorem myUnsetenv_cells {n : CStr} (h : none ∈ e.cells)
    (hvalid : isValidEnvName (some n) = true) :
    ∃ junk, (kept e n e.entries).length + junk.length = e.entries.length ∧
      myUnsetenv e (some n) = some (0, { e with cells := (kept e n e.entries).map some ++
        none :: (junk ++ e.cells.drop (e.entries.length + 1)) }) := by
  obtain ⟨junk, hlen, hloop⟩ := unset_loop n h
  refine ⟨junk, hlen, ?_⟩
  unfold myUnsetenv
  simp only [hvalid, hloop, Bool.not_true, Bool.false_eq_true, if_false]
  rfl

/-! ## Processes in good order -/

/-- The array ends, and its entries are strings that exist. -/
structure Proc.WF (e : Proc) : Prop where
  terminated : none ∈ e.cells
  old : ∀ p ∈ e.entries, p < e.top

/-- What `my_unsetenv` does with a valid name. -/
theorem myUnsetenv_entries {n : CStr} (hwf : e.WF) (hn : EQUALS ∉ n.bytes)
    (hvalid : isValidEnvName (some n) = true) : ∃ cells', myUnsetenv e (some n) =
      some (0, { e with cells := cells' }) ∧ none ∈ cells' ∧
      untilNull cells' = remove e.key n.bytes e.entries := by
  -- the entries that are dropped are the definitions of the name
  have hkept : kept e n e.entries = remove e.key n.bytes e.entries := by
    refine List.filter_congr fun p _ => ?_
    have hiff := matchesName_iff (e := e) (p := p) hn
    by_cases hm : matchesName e n p = some true
    · simp [hm, hiff.mp hm]
    · have hne : e.key p ≠ some n.bytes := fun h => hm (hiff.mpr h)
      simp [hm, hne]
  obtain ⟨junk, -, hcall⟩ := myUnsetenv_cells hwf.terminated hvalid
  rw [hkept] at hcall
  exact ⟨_, hcall, List.mem_append_right _ List.mem_cons_self, untilNull_append _ _⟩

/-! ## The map -/

/-- Names do not contain `=`. -/
def Name : Type := { k : List UInt8 // EQUALS ∉ k }

/-- A finite map from names to values. -/
abbrev EnvMap := Name → Option (List UInt8)

/-- Bind a name. -/
def EnvMap.set (m : EnvMap) (name value : List UInt8) : EnvMap :=
  fun k => if k.1 = name then some value else m k

/-- Remove a binding. -/
def EnvMap.unset (m : EnvMap) (name : List UInt8) : EnvMap :=
  fun k => if k.1 = name then none else m k

/-- `[A-Za-z_][A-Za-z0-9_]*`. -/
def ValidName : List UInt8 → Prop
  | [] => False
  | c :: cs => (isalpha c = true ∨ c = UNDERSCORE) ∧
      ∀ d ∈ cs, isalnum d = true ∨ d = UNDERSCORE

instance : (name : List UInt8) → Decidable (ValidName name)
  | [] => inferInstanceAs (Decidable False)
  | _ :: _ => inferInstanceAs (Decidable (_ ∧ _))

/-- One test of `is_valid_env_name`, and what comes after it. -/
theorem test_iff (ok rest : Bool) (c : UInt8) :
    (if !(ok || c == UNDERSCORE) then false else rest) = true ↔
      (ok = true ∨ c = UNDERSCORE) ∧ rest = true := by
  by_cases hc : ok = true ∨ c = UNDERSCORE
  · have htest : (ok || c == UNDERSCORE) = true := by simpa using hc
    rw [htest]
    exact ⟨fun h => ⟨hc, h⟩, fun h => h.2⟩
  · have htest : (ok || c == UNDERSCORE) = false := by simpa using hc
    rw [htest]
    exact ⟨fun h => (nomatch h), fun h => absurd h.1 hc⟩

theorem validFrom_iff (cs : List UInt8) :
    validFrom cs = true ↔ ∀ d ∈ cs, isalnum d = true ∨ d = UNDERSCORE := by
  induction cs with
  | nil => simp [validFrom]
  | cons c cs ih => rw [validFrom, test_iff, ih, List.forall_mem_cons]

/-- `is_valid_env_name` accepts exactly these names. -/
theorem isValidEnvName_iff (n : CStr) : isValidEnvName (some n) = true ↔ ValidName n.bytes := by
  unfold isValidEnvName
  cases hn : n.bytes with
  | nil => simp [ValidName, hn]
  | cons c cs =>
    simp only [hn, ValidName]
    rw [test_iff, validFrom_iff]

theorem isValidEnvName_false {n : CStr} (h : ¬ ValidName n.bytes) :
    isValidEnvName (some n) = false := by
  rw [← Bool.not_eq_true, isValidEnvName_iff]
  exact h

/-- A valid name is a name. -/
theorem ValidName.noEquals : ∀ {name : List UInt8}, ValidName name → EQUALS ∉ name
  | c :: cs, ⟨hc, hcs⟩, hmem => by
    rcases List.mem_cons.mp hmem with heq | hmem
    · rw [← heq] at hc
      exact absurd hc (by decide)
    · exact absurd (hcs EQUALS hmem) (by decide)

/-- The two functions on the map. -/
def EnvMap.call (m : EnvMap) : Call → Int × EnvMap
  | .setenv name value overwrite =>
    if h : ValidName name.bytes then
      if (m ⟨name.bytes, h.noEquals⟩).isSome ∧ overwrite = 0 then (0, m)
      else (0, m.set name.bytes value.bytes)
    else (-1, m)
  | .unsetenv name => if ValidName name.bytes then (0, m.unset name.bytes) else (-1, m)

/-- Calls one after the other on the map. -/
def EnvMap.run (m : EnvMap) : List Call → List Int × EnvMap
  | [] => ([], m)
  | c :: cs => ((m.call c).1 :: ((m.call c).2.run cs).1, ((m.call c).2.run cs).2)

/-- What `getenv` makes of the process. -/
def Proc.view (e : Proc) : EnvMap := fun k => getenv e k.1

theorem Proc.view_eq (e : Proc) (k : Name) : e.view k = lookup e.key e.val k.1 e.entries :=
  getenv_eq_lookup k.2

/-! ## Refinement -/

/-- The process when `my_setenv` has written its definition and hands it to `putenv`. -/
def defined (e : Proc) (n v : CStr) : Proc := (malloc e).1.write e.top (definition n v)

theorem mySetenv_put {n v : CStr} {overwrite : Int} (hvalid : isValidEnvName (some n) = true)
    (hgo : ¬ ((getenv e n.bytes).isSome ∧ overwrite = 0)) :
    mySetenv true true e (some n) (some v) overwrite = (0, putenv (defined e n v) e.top) := by
  unfold mySetenv
  simp only [hvalid, Bool.not_true, Bool.false_eq_true, if_false, if_neg hgo, snprintf_definition,
    if_true]
  rfl

/-- A name that is bound already and not to be overwritten. -/
theorem mySetenv_keep {n v : CStr} {overwrite : Int} (hvalid : isValidEnvName (some n) = true)
    (hkeep : (getenv e n.bytes).isSome ∧ overwrite = 0) :
    mySetenv true true e (some n) (some v) overwrite = (0, e) := by
  unfold mySetenv
  simp only [hvalid, Bool.not_true, Bool.false_eq_true, if_false, if_pos hkeep]

/-- Both functions refuse a name that is not valid, and leave everything as it is. -/
theorem invalid_refused {n : CStr} (hbad : isValidEnvName (some n) = false) :
    (∀ v overwrite, mySetenv true true e (some n) (some v) overwrite = (-1, e)) ∧
      myUnsetenv e (some n) = some (-1, e) := by
  constructor
  · intro v overwrite
    unfold mySetenv
    simp only [hbad, Bool.not_false, if_true]
  · unfold myUnsetenv
    simp only [hbad, Bool.not_false, if_true]

/-- The new string is a definition of the name; the old ones are what they were. -/
theorem defined_key {n v : CStr} (hn : EQUALS ∉ n.bytes) :
    (defined e n v).key e.top = some n.bytes ∧ (defined e n v).val e.top = v.bytes := by
  have hstr : (defined e n v).str e.top = definition n v := Function.update_self ..
  unfold Proc.key Proc.val
  rw [hstr]
  exact nameOf_definition hn

theorem defined_old {n v : CStr} (hp : p < e.top) :
    (defined e n v).key p = e.key p ∧ (defined e n v).val p = e.val p := by
  have hstr : (defined e n v).str p = e.str p := Function.update_of_ne (Nat.ne_of_lt hp) _ _
  unfold Proc.key Proc.val
  rw [hstr]
  exact ⟨rfl, rfl⟩

/-- `putenv` of that definition binds the name. -/
theorem putenv_defined {n v : CStr} (hwf : e.WF) (hn : EQUALS ∉ n.bytes) :
    (putenv (defined e n v) e.top).WF ∧
      (putenv (defined e n v) e.top).view = e.view.set n.bytes v.bytes := by
  have hname : ((defined e n v).str e.top).bytes.takeWhile (· ≠ EQUALS) = n.bytes := by
    rw [show (defined e n v).str e.top = definition n v from Function.update_self ..]
    exact (cut_at_equals hn).1
  have hentries : (putenv (defined e n v) e.top).entries =
      put (defined e n v).key n.bytes e.top e.entries := by
    unfold putenv Proc.entries
    rw [hname]
    exact untilNull_putCells (fun q => startsWith_key hn) e.top e.cells
  refine ⟨⟨none_mem_putCells _ _ hwf.terminated, fun p hp => ?_⟩, funext fun k => ?_⟩
  · show p < e.top + 1
    rw [hentries] at hp
    rcases mem_put hp with rfl | hp
    · exact Nat.lt_succ_self _
    · exact Nat.lt_succ_of_lt (hwf.old p hp)
  · obtain ⟨hkey, hval⟩ := defined_key (v := v) hn
    rw [Proc.view_eq, hentries]
    show lookup (defined e n v).key (defined e n v).val k.1 _ = if k.1 = n.bytes then _ else e.view k
    rw [lookup_put hkey, hval, Proc.view_eq, lookup_congr fun p hp => defined_old (hwf.old p hp)]

/-- `my_unsetenv` of a valid name removes its binding. -/
theorem unsetenv_refines {n : CStr} (hwf : e.WF) (hvalid : ValidName n.bytes) :
    ∃ e', myUnsetenv e (some n) = some (0, e') ∧ e'.WF ∧ e'.view = e.view.unset n.bytes := by
  obtain ⟨cells', hcall, hnull, hentries⟩ :=
    myUnsetenv_entries hwf hvalid.noEquals ((isValidEnvName_iff n).mpr hvalid)
  refine ⟨_, hcall, ⟨hnull, fun p hp => ?_⟩, funext fun k => ?_⟩
  · -- what is left was there before
    have hmem : p ∈ remove e.key n.bytes e.entries := hentries ▸ hp
    exact hwf.old p (List.mem_of_mem_filter hmem)
  · rw [Proc.view_eq]
    show lookup e.key e.val k.1 (untilNull cells') = if k.1 = n.bytes then none else e.view k
    rw [hentries, lookup_remove, Proc.view_eq]

/-- **One call** returns what the map's call returns, and does to `getenv` what that does. -/
theorem call_refines (hwf : e.WF) (c : Call) : ∃ e', call e c = some ((e.view.call c).1, e') ∧
    e'.WF ∧ e'.view = (e.view.call c).2 := by
  cases c with
  | setenv n v overwrite =>
    by_cases hvalid : ValidName n.bytes
    · have hok := (isValidEnvName_iff n).mpr hvalid
      by_cases hkeep : (getenv e n.bytes).isSome ∧ overwrite = 0
      · have habs : e.view.call (.setenv n v overwrite) = (0, e.view) :=
          (dif_pos hvalid).trans (if_pos hkeep)
        rw [habs]
        exact ⟨e, congrArg some (mySetenv_keep hok hkeep), hwf, rfl⟩
      · have habs : e.view.call (.setenv n v overwrite) = (0, e.view.set n.bytes v.bytes) :=
          (dif_pos hvalid).trans (if_neg hkeep)
        obtain ⟨hwf', hview⟩ := putenv_defined (v := v) hwf hvalid.noEquals
        rw [habs]
        exact ⟨_, congrArg some (mySetenv_put hok hkeep), hwf', hview⟩
    · have habs : e.view.call (.setenv n v overwrite) = (-1, e.view) := dif_neg hvalid
      have hcall := (invalid_refused (e := e) (isValidEnvName_false hvalid)).1 v overwrite
      rw [habs]
      exact ⟨e, congrArg some hcall, hwf, rfl⟩
  | unsetenv n =>
    by_cases hvalid : ValidName n.bytes
    · have habs : e.view.call (.unsetenv n) = (0, e.view.unset n.bytes) := if_pos hvalid
      rw [habs]
      exact unsetenv_refines hwf hvalid
    · have habs : e.view.call (.unsetenv n) = (-1, e.view) := if_neg hvalid
      rw [habs]
      exact ⟨e, (invalid_refused (isValidEnvName_false hvalid)).2, hwf, rfl⟩

/-- **Refinement.**  From every environment, duplicate definitions and entries without `=`
    included, every sequence of calls returns, with the results the map gives, and after it
    `getenv` of every name is the map's value. -/
theorem run_refines (hwf : e.WF) (cs : List Call) : ∃ e',
    run e cs = some ((e.view.run cs).1, e') ∧ e'.view = (e.view.run cs).2 := by
  induction cs generalizing e with
  | nil => exact ⟨e, rfl, rfl⟩
  | cons c cs ih =>
    obtain ⟨e₁, hcall, hwf₁, hview⟩ := call_refines hwf c
    obtain ⟨e', hrun, hview'⟩ := ih hwf₁
    rw [hview] at hrun hview'
    refine ⟨e', ?_, hview'⟩
    show (call e c).bind _ = _
    rw [hcall]
    show (run e₁ cs).map _ = _
    rw [hrun]
    rfl

/-- `A=1`, `A=2` and `x`, an environment with a name defined twice and an entry without `=`. -/
def shadowed : Proc where
  str := fun p =>
    if p = 0 then ⟨[65, 61, 49], by decide⟩
    else if p = 1 then ⟨[65, 61, 50], by decide⟩
    else ⟨[120], by decide⟩
  top := 3
  cells := [some 0, some 1, some 2, none]

/-- `my_unsetenv("A")` and `my_setenv("A", "3", 0)`. -/
def renewCalls : List Call :=
  [.unsetenv ⟨[65], by decide⟩, .setenv ⟨[65], by decide⟩ ⟨[51], by decide⟩ 0]

/-- Both definitions of `A` go, so that the second call binds it. -/
theorem run_refines_shadowed : ∃ e', run shadowed renewCalls = some ([0, 0], e') ∧
    e'.view ⟨[65], by decide⟩ = some [51] := by
  have hwf : shadowed.WF := ⟨by decide, by decide⟩
  have hres : (shadowed.view.run renewCalls).1 = [0, 0] := by decide +kernel
  have hval : (shadowed.view.run renewCalls).2 ⟨[65], by decide⟩ = some [51] := by decide +kernel
  obtain ⟨e', hrun, hview⟩ := run_refines hwf renewCalls
  rw [hres] at hrun
  rw [← hview] at hval
  exact ⟨e', hrun, hval⟩

end LinuxInterface.Env
