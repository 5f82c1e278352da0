import WorkflowModel.CString
import WorkflowModel.Lib.Block

/-!
# Strings in arrays

The string functions of the C library on an array that may not be filled. They read one cell after the other
up to the NUL, and have no result when they come to a cell that holds nothing or to the end of the array.
-/

namespace WorkflowModel.Block

def cell {α : Type} (i : Nat) (block : Block α) : Option α := (block[i]?).join

/-- `strchr` from a place on, with the index of what it finds. -/
def strchrFrom (c : UInt8) (block : Block UInt8) : Nat → Nat → Option (Option Nat)
  | 0, _ => none
  | rounds + 1, i => do
      let d ← block.cell i
      if d = c then some (some i)
      else if d = charNul then some none
      else strchrFrom c block rounds (i + 1)

/-- The string at a place. -/
def stringFrom (block : Block UInt8) : Nat → Nat → Option Bytes
  | 0, _ => none
  | rounds + 1, i => do
      let d ← block.cell i
      if d = charNul then some []
      else do
        let rest ← stringFrom block rounds (i + 1)
        some (d :: rest)

variable {block : Block UInt8} {front s back : Bytes} {c d : UInt8} {rounds : Nat}

theorem holds_iff {α : Type} {block : Block α} {text : List α} :
    block.Holds text ↔ ∃ behind, block = text.map some ++ behind := by
  constructor
  · intro h
    refine ⟨block.drop text.length, ?_⟩
    rw [← h, List.take_append_drop]
  · rintro ⟨behind, rfl⟩
    exact List.take_left' (List.length_map ..)

theorem Holds.cell {α : Type} {block : Block α} {front back : List α} {a : α} (h : block.Holds (front ++ a :: back)) :
    block.cell front.length = some a := by
  obtain ⟨behind, rfl⟩ := holds_iff.mp h
  simp [Block.cell]

theorem Holds.left {α : Type} {block : Block α} {front back : List α} (h : block.Holds (front ++ back)) :
    block.Holds front := by
  obtain ⟨behind, rfl⟩ := holds_iff.mp h
  exact holds_iff.mpr ⟨back.map some ++ behind, by simp⟩

theorem Holds.length_le {α : Type} {block : Block α} {text : List α} (h : block.Holds text) :
    text.length ≤ block.length := by
  obtain ⟨behind, rfl⟩ := holds_iff.mp h
  simp

theorem Holds.set {α : Type} {block : Block α} {front back : List α} {a : α} (h : block.Holds (front ++ a :: back))
    (b : α) : ∃ block', block.write front.length [b] = some block' ∧ block'.Holds (front ++ b :: back)
      ∧ block'.length = block.length := by
  obtain ⟨behind, rfl⟩ := holds_iff.mp h
  have hwrite : Block.write front.length [b] ((front ++ a :: back).map some ++ behind)
      = some ((front ++ b :: back).map some ++ behind) := by
    have hfits : front.length + [b].length ≤ ((front ++ a :: back).map some ++ behind).length := by
      simp
    rw [Block.write, if_pos hfits]
    simp [List.drop_append]
  exact ⟨_, hwrite, holds_iff.mpr ⟨behind, rfl⟩, length_write hwrite⟩

theorem strchrFrom_skip (h : block.Holds (front ++ s ++ back)) (hc : c ∉ s) (hnul : charNul ∉ s) :
    block.strchrFrom c (s.length + rounds) front.length = block.strchrFrom c rounds (front ++ s).length := by
  induction s generalizing front with
  | nil => simp
  | cons d s ih =>
      obtain ⟨hdc, hc⟩ := not_or.mp (fun hmem => hc (List.mem_cons.mpr hmem))
      obtain ⟨hdnul, hnul⟩ := not_or.mp (fun hmem => hnul (List.mem_cons.mpr hmem))
      have hcell : block.cell front.length = some d := by
        rw [List.append_assoc] at h
        exact h.cell
      have hrest : block.strchrFrom c (s.length + rounds) (front ++ [d]).length
          = block.strchrFrom c rounds ((front ++ [d]) ++ s).length := ih (by simpa using h) hc hnul
      rw [List.length_append, List.append_assoc] at hrest
      rw [List.length_cons, Nat.add_right_comm, strchrFrom, hcell]
      simp only [Option.bind_eq_bind, Option.bind_some, if_neg (Ne.symm hdc), if_neg (Ne.symm hdnul)]
      exact hrest

theorem strchrFrom_found (front back : Bytes) (h : block.Holds (front ++ s ++ c :: back)) (hc : c ∉ s) (hnul : charNul ∉ s)
    (hrounds : s.length < rounds) : block.strchrFrom c rounds front.length = some (some (front ++ s).length) := by
  obtain ⟨k, rfl⟩ : ∃ k, rounds = s.length + (k + 1) := ⟨rounds - s.length - 1, by omega⟩
  rw [strchrFrom_skip h hc hnul, strchrFrom, h.cell]
  simp only [Option.bind_eq_bind, Option.bind_some, if_true]

theorem strchrFrom_missing (front back : Bytes) (h : block.Holds (front ++ s ++ charNul :: back)) (hc : c ∉ s) (hnul : charNul ∉ s)
    (hne : c ≠ charNul) (hrounds : s.length < rounds) : block.strchrFrom c rounds front.length = some none := by
  obtain ⟨k, rfl⟩ : ∃ k, rounds = s.length + (k + 1) := ⟨rounds - s.length - 1, by omega⟩
  rw [strchrFrom_skip h hc hnul, strchrFrom, h.cell]
  simp only [Option.bind_eq_bind, Option.bind_some, if_neg hne.symm, if_true]

/-- The string at a place ends at the first NUL. -/
theorem stringFrom_spec (front back : Bytes) (h : block.Holds (front ++ s ++ charNul :: back)) (hrounds : s.length < rounds) :
    block.stringFrom rounds front.length = some (cString s) := by
  induction s generalizing front rounds with
  | nil =>
      obtain ⟨rounds, rfl⟩ : ∃ k, rounds = k + 1 := ⟨rounds - 1, by simp at hrounds; omega⟩
      rw [List.append_nil] at h
      simp only [stringFrom, h.cell, Option.bind_eq_bind, Option.bind_some, if_true]
      rfl
  | cons d s ih =>
      obtain ⟨rounds, rfl⟩ : ∃ k, rounds = k + 1 := ⟨rounds - 1, by simp at hrounds; omega⟩
      have hcell : block.cell front.length = some d := by
        rw [List.append_assoc] at h
        exact h.cell
      have hrest : block.stringFrom rounds (front ++ [d]).length = some (cString s) :=
        ih (front ++ [d]) (by simpa using h) (by simp at hrounds; omega)
      rw [List.length_append] at hrest
      by_cases hd : d = charNul
      · subst hd
        simp only [stringFrom, hcell, Option.bind_eq_bind, Option.bind_some, if_true, cString_nul]
      · simp only [stringFrom, hcell, Option.bind_eq_bind, Option.bind_some, if_neg hd, cString_cons hd]
        rw [show front.length + 1 = front.length + [d].length from rfl, hrest]
        rfl

end WorkflowModel.Block
