import Mathlib.Logic.Basic

/-!
# Runs of a partial step

A step function that may refuse an input is run over a list of inputs, and the run fails when a step does. What the
steps preserve holds at the end of the run.
-/

namespace Replay

variable {σ ι : Type*} {step : σ → ι → Option σ} {s s' : σ} {inputs : List ι}

def replay (step : σ → ι → Option σ) (s : σ) : List ι → Option σ
  | [] => some s
  | i :: inputs => (step s i).bind fun s => replay step s inputs

theorem replay_preserves {P : σ → Prop} (hstep : ∀ i ∈ inputs, ∀ s s', P s → step s i = some s' → P s') (hs : P s)
    (h : replay step s inputs = some s') : P s' := by
  induction inputs generalizing s with
  | nil =>
      obtain rfl : s = s' := Option.some.inj h
      exact hs
  | cons i inputs ih =>
      obtain ⟨t, ht, hrest⟩ := Option.bind_eq_some_iff.mp h
      have hnext := hstep i List.mem_cons_self s t hs ht
      exact ih (fun j hj => hstep j (List.mem_cons_of_mem i hj)) hnext hrest

theorem replay_relates {P : σ → Prop} {R : List ι → σ → σ → Prop} (hkeeps : ∀ s i t, P s → step s i = some t → P t)
    (hnil : ∀ s, R [] s s)
    (hcons : ∀ i inputs s t u, P s → step s i = some t → R inputs t u → R (i :: inputs) s u) (hs : P s)
    (h : replay step s inputs = some s') : P s' ∧ R inputs s s' := by
  induction inputs generalizing s with
  | nil =>
      obtain rfl : s = s' := Option.some.inj h
      exact ⟨hs, hnil s⟩
  | cons i inputs ih =>
      obtain ⟨t, ht, hrest⟩ := Option.bind_eq_some_iff.mp h
      obtain ⟨hs', hrel⟩ := ih (hkeeps s i t hs ht) hrest
      exact ⟨hs', hcons i inputs s t s' hs ht hrel⟩

end Replay
