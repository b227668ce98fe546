/-
  What `my_unsetenv` (ch06/3_env.c) leaves of the array, and which memory it touches.

  `EnvMap` says what the call means for `getenv`.  Here it is the array itself: the pointers that
  stay, their order, and the cells behind the old `NULL`.  Every round of the loop reads and writes
  within the old array, `NULL` included, and reads no byte behind the terminator of an entry: the
  test would fail on such a read, and it does not, because the byte behind the name is read only
  when `strncmp` has found the name to be there (`InBounds`).
-/
import LinuxInterface.Ch06.EnvMap

namespace LinuxInterface.Env

open LinuxInterface

variable {e : Proc} {n : CStr}

/-- In this round `env` and `dest` are at most at the old `NULL`, and the test of the entry reads no
    byte behind a terminator. -/
def InBounds (e : Proc) (n : CStr) (st : List (Option Nat) × Nat × Nat) : Prop :=
  st.2.1 ≤ e.entries.length ∧ st.2.2 ≤ e.entries.length ∧
    ∀ p, st.1[st.2.1]? = some (some p) → ∃ hit, matchesName e n p = some hit

theorem Compacting.inBounds {st : List (Option Nat) × Nat × Nat} (h : Compacting e n st) :
    InBounds e n st := by
  obtain ⟨seen, rest, junk, hentries, hlen, rfl⟩ := h
  have hseen : seen.length ≤ e.entries.length := by rw [hentries]; simp
  refine ⟨?_, ?_, fun p _ => ⟨_, matchesName_eq_some e n p⟩⟩
  · show ((kept e n seen).map some).length + junk.length ≤ _
    rw [List.length_map]
    omega
  · show ((kept e n seen).map some).length ≤ _
    rw [List.length_map]
    omega

theorem matchesName_eq (n : CStr) (p : Nat) (hn : EQUALS ∉ n.bytes) :
    (matchesName e n p != some true) = !startsWith n.bytes (e.str p) := by
  have hiff : matchesName e n p = some true ↔ startsWith n.bytes (e.str p) = true := by
    rw [matchesName_iff hn, startsWith_key hn]
  by_cases hm : matchesName e n p = some true
  · rw [hm, hiff.mp hm]
    rfl
  · rw [matchesName_false hm, Bool.eq_false_iff.mpr fun h => hm (hiff.mpr h)]
    rfl

/-- **A stable filter, in place.**  On every array that ends, `my_unsetenv` of a valid name returns
    0 and leaves the entries that do not start with the name and `=`, in their order, and the
    memory behind the old `NULL`; on the way it stays within the array and the strings.  Any other
    name it refuses, and changes nothing. -/
theorem myUnsetenv_filter (name : Option CStr) (hnull : none ∈ e.cells) :
    (∀ n, name = some n → ValidName n.bytes →
      ∃ cells', myUnsetenv e name = some (0, { e with cells := cells' }) ∧
        untilNull cells' = e.entries.filter (fun p => !startsWith n.bytes (e.str p)) ∧
        none ∈ cells' ∧ cells'.length = e.cells.length ∧
        cells'.drop (e.entries.length + 1) = e.cells.drop (e.entries.length + 1) ∧
        ∀ st ∈ rounds (unsetBody e n) (e.cells.length + 1) (e.cells, 0, 0), InBounds e n st) ∧
    ((∀ n, name = some n → ¬ ValidName n.bytes) → myUnsetenv e name = some (-1, e)) := by
  constructor
  · rintro n rfl hvalid
    obtain ⟨junk, hlen, hcall⟩ := myUnsetenv_cells hnull ((isValidEnvName_iff n).mpr hvalid)
    have hkept : kept e n e.entries = e.entries.filter fun p => !startsWith n.bytes (e.str p) :=
      List.filter_congr fun p _ => matchesName_eq n p hvalid.noEquals
    have hfront : ((kept e n e.entries).map some ++ none :: junk).length = e.entries.length + 1 := by
      rw [List.length_append, List.length_map, List.length_cons]
      omega
    have hcells : (kept e n e.entries).map some ++ none ::
        (junk ++ e.cells.drop (e.entries.length + 1)) =
          ((kept e n e.entries).map some ++ none :: junk) ++ e.cells.drop (e.entries.length + 1) := by
      simp
    refine ⟨_, hcall, ?_, List.mem_append_right _ List.mem_cons_self, ?_, ?_, ?_⟩
    · rw [untilNull_append, hkept]
    · have hlt := entries_length_lt hnull
      rw [hcells, List.length_append, hfront, List.length_drop]
      omega
    · rw [hcells, ← hfront, List.drop_left]
    · intro st hst
      exact (rounds_inv (fun _ _ h hagain => (h.next hagain).1) (compacting_start n hnull) st
        hst).inBounds
  · intro hbad
    cases name with
    | none => rfl
    | some n => exact (invalid_refused (isValidEnvName_false (hbad n rfl))).2

/-- Both definitions of `A` go, and `x` stays. -/
theorem myUnsetenv_filter_shadowed : ∃ cells',
    myUnsetenv shadowed (some ⟨[65], by decide⟩) = some (0, { shadowed with cells := cells' }) ∧
      untilNull cells' = [2] := by
  obtain ⟨cells', hcall, hkept, -⟩ :=
    (myUnsetenv_filter (e := shadowed) (some ⟨[65], by decide⟩) (by decide)).1 _ rfl
      ⟨by decide, fun _ hd => nomatch hd⟩
  refine ⟨cells', hcall, hkept.trans ?_⟩
  decide +kernel

end LinuxInterface.Env
