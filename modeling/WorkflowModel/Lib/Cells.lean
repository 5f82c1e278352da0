import Mathlib.Data.List.Basic

/-!
# Objects that are created and deleted

A store gives each new object the next identity and never gives one twice. A deleted object leaves an
empty cell behind, and neither it nor an identity that was not given yet can be read, written or
deleted.
-/

namespace WorkflowModel

variable {α : Type*}

abbrev Cells (α : Type*) := List (Option α)

namespace Cells

def read (cells : Cells α) (id : Nat) : Option α := cells[id]?.join

/-- The identity of the next object. -/
def fresh (cells : Cells α) : Nat := cells.length

def create (cells : Cells α) (object : α) : Cells α := cells ++ [some object]

def write (cells : Cells α) (id : Nat) (object : α) : Option (Cells α) :=
  (cells.read id).map fun _ => cells.set id (some object)

def delete (cells : Cells α) (id : Nat) : Option (Cells α) :=
  (cells.read id).map fun _ => cells.set id none

variable {cells cells' : Cells α} {id : Nat} {object object' : α}

theorem lt_fresh_of_read (h : cells.read id = some object) : id < cells.fresh := by
  by_contra hlong
  rw [read, List.getElem?_eq_none (Nat.not_lt.mp hlong)] at h
  cases h

theorem read_create_of_read (h : cells.read id = some object) (object' : α) :
    (cells.create object').read id = some object := by
  have hlt : id < cells.length := lt_fresh_of_read h
  rw [read, create, List.getElem?_append_left hlt]
  exact h

theorem read_create_fresh (cells : Cells α) (object : α) :
    (cells.create object).read cells.fresh = some object := by
  rw [read, create, fresh, List.getElem?_concat_length]
  rfl

theorem read_of_delete (h : cells.delete id = some cells') : cells'.read id = none := by
  rw [delete, Option.map_eq_some_iff] at h
  obtain ⟨object, hread, rfl⟩ := h
  have hlt : id < cells.length := lt_fresh_of_read hread
  rw [read, List.getElem?_set_self hlt]
  rfl

end Cells

end WorkflowModel
