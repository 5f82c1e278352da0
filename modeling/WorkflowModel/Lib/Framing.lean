import Mathlib.Data.List.Basic

/-!
# Consumers that find the end of a text

A consumer gets a stream in pieces. Of each piece it says how much it has used, and it says when it has come to the
end of what it reads. It frames a text when this end is the end of the text, whatever the pieces are and whatever
follows the text in the stream.
-/

namespace Framing

variable {α μ : Type*} {call : List α → μ → Int × Nat × μ} {max : Nat} {ends : Int → Prop} {Done : μ → Prop}

/-- What a call of a consumer does with a piece when `text` is what it still has to come to. -/
def Consumes (call : List α → μ → Int × Nat × μ) (ends : Int → Prop) (Done : μ → Prop) (Mid : List α → μ → Prop)
    (text piece : List α) (msg : μ) : Prop :=
  ∃ ret n next, call piece msg = (ret, n, next) ∧ 0 < n ∧ n ≤ piece.length
    ∧ (ret = 0 ∧ n < text.length ∧ Mid (text.drop n) next ∨ ends ret ∧ n = text.length ∧ Done next)

/-- The pieces have at most `max` elements. A piece and the text begin alike when one goes on like the other. -/
def Frames (call : List α → μ → Int × Nat × μ) (max : Nat) (ends : Int → Prop) (Done : μ → Prop) (text : List α)
    (msg : μ) : Prop :=
  ∃ Mid : List α → μ → Prop, Mid text msg ∧ ∀ text msg piece more rest, Mid text msg → piece ≠ [] →
    piece.length ≤ max → piece ++ more = text ++ rest → Consumes call ends Done Mid text piece msg

theorem Frames.consumes {text piece more rest : List α} {msg : μ} (h : Frames call max ends Done text msg)
    (hpiece : piece ≠ []) (hmax : piece.length ≤ max) (halike : piece ++ more = text ++ rest) :
    Consumes call ends Done (Frames call max ends Done) text piece msg := by
  obtain ⟨Mid, hmid, hstep⟩ := h
  obtain ⟨ret, n, next, hcall, hpos, hle, hgo | hend⟩ := hstep _ _ _ _ _ hmid hpiece hmax halike
  · obtain ⟨hret, hlt, hnext⟩ := hgo
    exact ⟨ret, n, next, hcall, hpos, hle, .inl ⟨hret, hlt, Mid, hnext, hstep⟩⟩
  · exact ⟨ret, n, next, hcall, hpos, hle, .inr hend⟩

theorem Frames.mono {Done' : μ → Prop} {text : List α} {msg : μ} (hdone : ∀ msg, Done msg → Done' msg)
    (h : Frames call max ends Done text msg) : Frames call max ends Done' text msg := by
  obtain ⟨Mid, hmid, hstep⟩ := h
  refine ⟨Mid, hmid, fun text msg piece more rest hmid hpiece hmax halike => ?_⟩
  obtain ⟨ret, n, next, hcall, hpos, hle, hgo | ⟨hret, hn, hnext⟩⟩ := hstep _ _ _ _ _ hmid hpiece hmax halike
  · exact ⟨ret, n, next, hcall, hpos, hle, .inl hgo⟩
  · exact ⟨ret, n, next, hcall, hpos, hle, .inr ⟨hret, hn, hdone next hnext⟩⟩

/-- A consumer that goes on at the end of one text, as a consumer of another, frames the two as one. -/
theorem Frames.append {first second : List α} {msg : μ} (hne : second ≠ [])
    (h : Frames call max (· = 0) (Frames call max ends Done second) first msg) :
    Frames call max ends Done (first ++ second) msg := by
  refine ⟨fun text msg => Frames call max ends Done text msg ∨ ∃ first, text = first ++ second ∧
    Frames call max (· = 0) (Frames call max ends Done second) first msg, .inr ⟨first, rfl, h⟩, ?_⟩
  rintro text msg piece more rest (hmid | ⟨first, rfl, hmid⟩) hpiece hmax halike
  · obtain ⟨ret, n, next, hcall, hpos, hle, hgo | hend⟩ := hmid.consumes hpiece hmax halike
    · exact ⟨ret, n, next, hcall, hpos, hle, .inl ⟨hgo.1, hgo.2.1, .inl hgo.2.2⟩⟩
    · exact ⟨ret, n, next, hcall, hpos, hle, .inr hend⟩
  · rw [List.append_assoc] at halike
    have hpositive := List.length_pos_iff.mpr hne
    obtain ⟨ret, n, next, hcall, hpos, hle, hgo | hend⟩ := hmid.consumes hpiece hmax halike
    · obtain ⟨hret, hlt, hnext⟩ := hgo
      refine ⟨ret, n, next, hcall, hpos, hle, .inl ⟨hret, ?_, .inr ⟨first.drop n, ?_, hnext⟩⟩⟩
      · rw [List.length_append]
        omega
      · exact List.drop_append_of_le_length (Nat.le_of_lt hlt)
    · obtain ⟨hret, hn, hnext⟩ := hend
      refine ⟨ret, n, next, hcall, hpos, hle, .inl ⟨hret, ?_, .inl ?_⟩⟩
      · rw [List.length_append]
        omega
      · rw [hn, List.drop_left]
        exact hnext

end Framing
