import Mathlib.Data.List.Basic

/-!
# Blocks of memory

A block has a fixed number of cells. A cell that was not written yet holds nothing. A write that does not
fit into the block, and a read of a cell that holds nothing, have no result. A block is usually filled from
the front, so most facts are about the text that it holds at its front.
-/

namespace WorkflowModel

variable {α : Type*}

abbrev Block (α : Type*) := List (Option α)

namespace Block

def alloc (size : Nat) : Block α := List.replicate size none

def write (start : Nat) (text : List α) (block : Block α) : Option (Block α) :=
  if start + text.length ≤ block.length then
    some (block.take start ++ text.map some ++ block.drop (start + text.length))
  else
    none

def read (start count : Nat) (block : Block α) : Option (List α) :=
  if start + count ≤ block.length then ((block.drop start).take count).mapM id else none

/-- The block begins with a text. -/
def Holds (block : Block α) (text : List α) : Prop := block.take text.length = text.map some

variable {block block' : Block α} {front text : List α} {start : Nat}

@[simp]
theorem length_alloc (size : Nat) : (alloc size : Block α).length = size := List.length_replicate

theorem length_write (h : block.write start text = some block') : block'.length = block.length := by
  unfold write at h
  split_ifs at h with hfits
  cases h
  simp only [List.length_append, List.length_take, List.length_map, List.length_drop]
  omega

theorem holds_nil (block : Block α) : block.Holds [] := by simp [Holds]

theorem holds_map (text behind : List α) : Holds ((text ++ behind).map some) text := by
  rw [Holds, List.map_append]
  exact List.take_left' (List.length_map ..)

/-- A write right behind what the block holds makes the text longer. Nothing behind it changes. -/
theorem Holds.write (h : block.Holds front) (text : List α)
    (hfits : front.length + text.length ≤ block.length) :
    ∃ block', block.write front.length text = some block' ∧ block'.Holds (front ++ text)
      ∧ block'.length = block.length
      ∧ ∀ n, front.length + text.length ≤ n → block'.drop n = block.drop n := by
  have hwrite : block.write front.length text
      = some (block.take front.length ++ text.map some ++ block.drop (front.length + text.length)) :=
    if_pos hfits
  refine ⟨_, hwrite, ?_, length_write hwrite, ?_⟩
  · rw [h, ← List.map_append]
    exact List.take_left' (List.length_map ..)
  · intro n hn
    have hend : (block.take front.length ++ text.map some).length = front.length + text.length := by
      rw [List.length_append, List.length_take_of_le (by omega), List.length_map]
    obtain ⟨k, rfl⟩ := Nat.exists_eq_add_of_le hn
    rw [← hend, List.drop_length_add_append, List.drop_drop, hend]

theorem mapM_id_map_some (text : List α) : (text.map some).mapM id = some text := by
  induction text with
  | nil => rfl
  | cons a rest ih => simp [ih]

theorem Holds.read (h : block.Holds text) : Block.read 0 text.length block = some text := by
  have hfits : text.length ≤ block.length := by
    have := congrArg List.length h
    rw [List.length_take, List.length_map] at this
    omega
  rw [Block.read, if_pos (by omega), List.drop_zero, h, mapM_id_map_some]

theorem read_map (front text behind : List α) :
    Block.read front.length text.length ((front ++ text ++ behind).map some) = some text := by
  unfold Block.read
  rw [if_pos (by simp only [List.length_map, List.length_append]; omega), List.append_assoc,
    List.map_append, List.drop_left' (List.length_map ..), List.map_append,
    List.take_left' (List.length_map ..), mapM_id_map_some]

end Block

end WorkflowModel
