import WorkflowModel.Lib.Replay

/-!
# Runs that come to an end

Where a measure goes down with every step of a certain kind, no run of such steps is longer than the measure. If, in
addition, such a step is possible in every state that is not final, every run that goes on as long as it can ends in
a final state, and there is one.
-/

namespace Replay

variable {σ ι : Type*} {step : σ → ι → Option σ} {s s' : σ} {inputs : List ι} {P final : σ → Prop}
  {allowed : ι → Prop} {measure : σ → Nat}

/-- What the steps of a kind keep, and that they bring the measure down. -/
structure Decreases (step : σ → ι → Option σ) (P : σ → Prop) (allowed : ι → Prop) (measure : σ → Nat) : Prop where
  keeps : ∀ s i s', P s → allowed i → step s i = some s' → P s'
  lt : ∀ s i s', P s → allowed i → step s i = some s' → measure s' < measure s

theorem Decreases.length_add_le (h : Decreases step P allowed measure) (hs : P s) (hinputs : ∀ i ∈ inputs, allowed i)
    (hrun : replay step s inputs = some s') : inputs.length + measure s' ≤ measure s := by
  induction inputs generalizing s with
  | nil =>
      obtain rfl : s = s' := Option.some.inj hrun
      simp
  | cons i inputs ih =>
      obtain ⟨t, ht, hrest⟩ := Option.bind_eq_some_iff.mp hrun
      have hi := hinputs i List.mem_cons_self
      have hlt := h.lt s i t hs hi ht
      have hle := ih (h.keeps s i t hs hi ht) (fun j hj => hinputs j (List.mem_cons_of_mem i hj)) hrest
      rw [List.length_cons]
      omega

theorem Decreases.replay_keeps (h : Decreases step P allowed measure) (hs : P s)
    (hinputs : ∀ i ∈ inputs, allowed i) (hrun : replay step s inputs = some s') : P s' :=
  replay_preserves (fun i hi s s' hs hstep => h.keeps s i s' hs (hinputs i hi) hstep) hs hrun

theorem Decreases.final_of_stuck (h : Decreases step P allowed measure)
    (hprogress : ∀ s, P s → ¬ final s → ∃ i, allowed i ∧ (step s i).isSome = true) (hs : P s)
    (hinputs : ∀ i ∈ inputs, allowed i) (hrun : replay step s inputs = some s')
    (hstuck : ∀ i, allowed i → step s' i = none) : final s' := by
  refine Classical.byContradiction fun hfinal => ?_
  obtain ⟨i, hi, hstep⟩ := hprogress s' (h.replay_keeps hs hinputs hrun) hfinal
  rw [hstuck i hi] at hstep
  cases hstep

end Replay
