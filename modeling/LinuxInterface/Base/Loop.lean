/-
  Loops with a bound on the number of rounds.

  A C loop is a body that either goes round `again` with a new state or `leave`s with a result.
  `loopN body n` runs it for at most `n` rounds; `none` says it did not leave within them.
  `loopN_inv` is the rule for a loop that has left, `loopN_total` the one that also shows it does,
  `rounds_inv` the one for what happens on the way.  A machine that takes steps for as long as it
  can is the loop `toEnd step`.

  A loop over a list of places that changes each in the same way is the fold of `touch`; where a
  second change has no effect, it does not matter how often a place occurs (`foldl_touch`).

  `calls f k` is `k` calls of a function that keeps a state.  Where each call does what a simpler
  machine does, the calls come back with what that machine puts out (`calls_simulate`).
-/
import Mathlib.Logic.Function.Basic
import Mathlib.Logic.Function.Iterate

namespace LinuxInterface

variable {σ ρ : Type}

/-- What one round of a loop does. -/
inductive Turn (σ ρ : Type) where
  | again (s : σ)
  | leave (r : ρ)

/-- At most `n` rounds of the loop `body`, from the state `s`. -/
def loopN (body : σ → Turn σ ρ) : Nat → σ → Option ρ
  | 0, _ => none
  | n + 1, s =>
    match body s with
    | .again s' => loopN body n s'
    | .leave r => some r

theorem loopN_again {body : σ → Turn σ ρ} {s s' : σ} (h : body s = .again s') (n : Nat) :
    loopN body (n + 1) s = loopN body n s' := by
  simp only [loopN, h]

theorem loopN_leave {body : σ → Turn σ ρ} {s : σ} {r : ρ} (h : body s = .leave r) (n : Nat) :
    loopN body (n + 1) s = some r := by
  simp only [loopN, h]

/-- **The invariant rule.**  What holds before a loop and is kept by every round that goes on
    holds in the state the loop leaves from. -/
theorem loopN_inv {body : σ → Turn σ ρ} {I : σ → Prop} {r : ρ}
    (hstep : ∀ s s', I s → body s = .again s' → I s') : ∀ {n : Nat} {s : σ}, I s →
      loopN body n s = some r → ∃ s', I s' ∧ body s' = .leave r
  | 0, _, _, h => nomatch h
  | n + 1, s, hs, h => by
    cases hb : body s with
    | again s' =>
      rw [loopN_again hb] at h
      exact loopN_inv hstep (hstep s s' hs hb) h
    | leave r' =>
      rw [loopN_leave hb] at h
      exact ⟨s, hs, hb.trans (congrArg Turn.leave (Option.some.inj h))⟩

/-- **The rule for total correctness.**  A loop of which every round that goes on keeps the
    invariant and makes the measure smaller leaves within as many rounds as the measure says. -/
theorem loopN_total {body : σ → Turn σ ρ} {I : σ → Prop} {μ : σ → Nat}
    (hstep : ∀ s s', I s → body s = .again s' → I s' ∧ μ s' < μ s) : ∀ {n : Nat} {s : σ}, I s →
      μ s < n → ∃ r s', loopN body n s = some r ∧ I s' ∧ body s' = .leave r
  | 0, _, _, h => absurd h (Nat.not_lt_zero _)
  | n + 1, s, hs, h => by
    cases hb : body s with
    | again s' =>
      obtain ⟨hs', hlt⟩ := hstep s s' hs hb
      rw [loopN_again hb]
      exact loopN_total hstep hs' (by omega)
    | leave r => exact ⟨r, s, loopN_leave hb n, hs, hb⟩

/-- The states in which the rounds of the loop begin. -/
def rounds (body : σ → Turn σ ρ) : Nat → σ → List σ
  | 0, _ => []
  | n + 1, s =>
    s :: match body s with
      | .again s' => rounds body n s'
      | .leave _ => []

/-- The invariant holds whenever a round begins. -/
theorem rounds_inv {body : σ → Turn σ ρ} {I : σ → Prop}
    (hstep : ∀ s s', I s → body s = .again s' → I s') : ∀ {n : Nat} {s : σ}, I s →
      ∀ s' ∈ rounds body n s, I s'
  | 0, _, _, _, hmem => nomatch hmem
  | n + 1, s, hs, s', hmem => by
    unfold rounds at hmem
    rcases List.mem_cons.mp hmem with rfl | hmem
    · exact hs
    · cases hb : body s with
      | again s₁ =>
        rw [hb] at hmem
        exact rounds_inv hstep (hstep s s₁ hs hb) s' hmem
      | leave r =>
        rw [hb] at hmem
        nomatch hmem

/-! ## Machines -/

/-- A step of a machine, if there is one. -/
def toEnd (step : σ → Option σ) (s : σ) : Turn σ σ :=
  match step s with
  | some s' => .again s'
  | none => .leave s

section

variable {step : σ → Option σ} {s s' : σ}

theorem toEnd_step (h : step s = some s') : toEnd step s = .again s' := by
  unfold toEnd
  rw [h]

theorem toEnd_stop (h : step s = none) : toEnd step s = .leave s := by
  unfold toEnd
  rw [h]

/-- A machine of which every step keeps the invariant and makes the measure smaller stops, and
    where it stops there is no step. -/
theorem loopN_toEnd_total {I : σ → Prop} {μ : σ → Nat}
    (hstep : ∀ s s', I s → step s = some s' → I s' ∧ μ s' < μ s) {n : Nat} (hs : I s)
    (hn : μ s < n) : ∃ s', loopN (toEnd step) n s = some s' ∧ I s' ∧ step s' = none := by
  have hbody : ∀ s s', I s → toEnd step s = .again s' → I s' ∧ μ s' < μ s := by
    intro s s' hI hagain
    cases hs : step s with
    | none => nomatch (toEnd_stop hs).symm.trans hagain
    | some s₁ =>
      obtain rfl := Turn.again.inj ((toEnd_step hs).symm.trans hagain)
      exact hstep s s₁ hI hs
  obtain ⟨r, s', hrun, hI, hleave⟩ := loopN_total hbody hs hn
  cases hs' : step s' with
  | some s₁ => nomatch (toEnd_step hs').symm.trans hleave
  | none =>
    obtain rfl := Turn.leave.inj ((toEnd_stop hs').symm.trans hleave)
    exact ⟨s', hrun, hI, hs'⟩

end

/-! ## One place after another -/

section

variable {ι β : Type} [DecidableEq ι]

/-- One place is changed. -/
def touch (f : β → β) (m : ι → β) (i : ι) : ι → β := Function.update m i (f (m i))

/-- Every place of the list is changed once. -/
theorem foldl_touch {f : β → β} (hidem : ∀ x, f (f x) = f x) (places : List ι) (m : ι → β) (i : ι) :
    places.foldl (touch f) m i = if i ∈ places then f (m i) else m i := by
  induction places generalizing m with
  | nil => exact (if_neg List.not_mem_nil).symm
  | cons j places ih =>
    rw [List.foldl_cons, ih]
    by_cases hij : i = j
    · subst hij
      -- changed here, and maybe once more
      rw [touch, Function.update_self, hidem, ite_self, if_pos List.mem_cons_self]
    · rw [touch, Function.update_of_ne hij]
      simp only [List.mem_cons, hij, false_or]

end

/-! ## Calls one after the other -/

section

variable {β γ : Type} {f : σ → Option (ρ × σ)}

/-- What the first `k` calls return. -/
def calls (f : σ → Option (ρ × σ)) : Nat → σ → Option (List ρ)
  | 0, _ => some []
  | k + 1, s => (f s).bind fun rs => (calls f k rs.2).map (rs.1 :: ·)

/-- **The rule for functions with a state**: `view` is what the simpler machine sees of the state, `out`
    and `next` are that machine. -/
theorem calls_simulate (J : σ → Prop) (view : σ → β) (out : β → γ) (next : β → β) {g : ρ → γ}
    (h : ∀ s, J s → ∃ r s', f s = some (r, s') ∧ J s' ∧ g r = out (view s) ∧ view s' = next (view s)) :
    ∀ (k : Nat) {s : σ}, J s →
      (calls f k s).map (List.map g) = some ((List.range k).map fun i => out (next^[i] (view s)))
  | 0, _, _ => rfl
  | k + 1, s, hs => by
    obtain ⟨r, s', hf, hs', hout, hnext⟩ := h s hs
    obtain ⟨rs, hrs, hmap⟩ := Option.map_eq_some_iff.mp (calls_simulate J view out next h k hs')
    have hcalls : calls f (k + 1) s = some (r :: rs) := by
      rw [calls, hf, Option.bind_some, hrs]
      rfl
    rw [hcalls, Option.map_some, List.map_cons, hmap, hout, hnext, List.range_succ_eq_map, List.map_cons,
      List.map_map]
    rfl

end

end LinuxInterface
