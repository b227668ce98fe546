/-
  Guarded runs of a labelled transition system.

  `step s l` is what the system does in state `s` on the label `l` (`none`: it does not return).
  `Reach step G s₀ s` says that some finite run leads from `s₀` to `s`, every one of its steps
  being admitted by the guard `G` in the state it is taken from.  A safety theorem is
  `Reach.inv`: what holds at the start and is kept by every admitted step holds everywhere.
  `runList` carries out a given list of steps, and `runList_bound` bounds how many of them count.
-/

namespace LinuxInterface

variable {σ ℓ : Type}

/-- The states that finite runs from `s₀` with admitted steps lead to. -/
inductive Reach (step : σ → ℓ → Option σ) (G : σ → ℓ → Prop) (s₀ : σ) : σ → Prop where
  | init : Reach step G s₀ s₀
  | step {s s' : σ} {l : ℓ} :
      Reach step G s₀ s → G s l → step s l = some s' → Reach step G s₀ s'

/-- The guard that admits every step. -/
def Any (_ : σ) (_ : ℓ) : Prop := True

instance (s : σ) (l : ℓ) : Decidable (Any s l) := inferInstanceAs (Decidable True)

variable {step : σ → ℓ → Option σ} {G G' : σ → ℓ → Prop} {s₀ s : σ}

/-- **The invariant rule.** -/
theorem Reach.inv {I : σ → Prop} (h : Reach step G s₀ s) (h0 : I s₀)
    (hs : ∀ s l s', I s → G s l → step s l = some s' → I s') : I s := by
  induction h with
  | init => exact h0
  | step _ hG hstep ih => exact hs _ _ _ ih hG hstep

/-- The rule for steps that are known to return. -/
theorem Reach.inv_of_returns {I : σ → Prop} (h : Reach step G s₀ s) (h0 : I s₀)
    (hs : ∀ s l, I s → G s l → ∃ s', step s l = some s' ∧ I s') : I s := by
  refine h.inv h0 fun s l s' hI hG hstep => ?_
  obtain ⟨t, ht, hIt⟩ := hs s l hI hG
  rw [Option.some.inj (hstep.symm.trans ht)]
  exact hIt

/-- A guard that admits more leads everywhere. -/
theorem Reach.mono (hG : ∀ s l, G s l → G' s l) (h : Reach step G s₀ s) : Reach step G' s₀ s := by
  induction h with
  | init => exact Reach.init
  | step _ hg hstep ih => exact Reach.step ih (hG _ _ hg) hstep

/-- The labels of `ls` taken one after the other, as long as the guard admits them. -/
def runList (step : σ → ℓ → Option σ) (G : σ → ℓ → Prop) [∀ s l, Decidable (G s l)] :
    σ → List ℓ → Option σ
  | s, [] => some s
  | s, l :: ls => if G s l then (step s l).bind fun s' => runList step G s' ls else none

/-- A run that was carried out is a run. -/
theorem Reach.of_runList [∀ s l, Decidable (G s l)] {t : σ} : ∀ {ls : List ℓ} {s : σ},
    Reach step G s₀ s → runList step G s ls = some t → Reach step G s₀ t
  | [], s, h, hr => by
    have hst : s = t := Option.some.inj hr
    rw [← hst]
    exact h
  | l :: ls, s, h, hr => by
    unfold runList at hr
    split at hr
    · rename_i hG
      obtain ⟨s', hs', hr⟩ := Option.bind_eq_some_iff.mp hr
      exact Reach.of_runList (Reach.step h hG hs') hr
    · nomatch hr

/-- **The rule for long runs.**  Where every step keeps the invariant, no step makes the measure
    larger and those that count make it smaller, there are at most as many of them in a run as the
    measure says. -/
theorem runList_bound [∀ s l, Decidable (G s l)] {I : σ → Prop} {μ : σ → Nat} {counts : ℓ → Bool}
    (hs : ∀ s l s', I s → G s l → step s l = some s' →
      I s' ∧ μ s' + (if counts l then 1 else 0) ≤ μ s) {t : σ} : ∀ {ls : List ℓ} {s : σ}, I s →
        runList step G s ls = some t → I t ∧ ls.countP counts + μ t ≤ μ s
  | [], s, hI, hr => by
    obtain rfl : s = t := Option.some.inj hr
    exact ⟨hI, by simp⟩
  | l :: ls, s, hI, hr => by
    unfold runList at hr
    split at hr
    · rename_i hG
      obtain ⟨s', hs', hr⟩ := Option.bind_eq_some_iff.mp hr
      obtain ⟨hI', hle⟩ := hs s l s' hI hG hs'
      obtain ⟨hIt, hcount⟩ := runList_bound hs hI' hr
      refine ⟨hIt, ?_⟩
      rw [List.countP_cons]
      omega
    · nomatch hr

/-- What is seen at the end of a run that was carried out is seen in a reached state. -/
theorem Reach.of_observed [∀ s l, Decidable (G s l)] {α : Type} {f : σ → α} {x : α} {ls : List ℓ}
    (h : (runList step G s₀ ls).map f = some x) : ∃ s, Reach step G s₀ s ∧ f s = x := by
  obtain ⟨s, hs, hx⟩ := Option.map_eq_some_iff.mp h
  exact ⟨s, Reach.of_runList Reach.init hs, hx⟩

end LinuxInterface
