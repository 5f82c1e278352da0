import WorkflowModel.Kernel.SubTask

/-!
# The tasks of a tree

The tasks that can be dispatched are those that the root leads to. Each of them is on the chain of its place, which
starts with a task of the array and goes on with what `done` returns.
-/

namespace WorkflowModel.Kernel.SubTask

open Relation

variable {tree : TaskTree} {p t u : Nat} {l : List Nat} {q : Nat × Nat}

namespace TaskTree

inductive InTree (tree : TaskTree) : Nat → Prop where
  | root : InTree tree tree.root
  | child {p t : Nat} {l : List Nat} : InTree tree p → tree.subtasks p = some l → t ∈ l → InTree tree t
  | next {t u : Nat} : InTree tree t → tree.next t = some u → InTree tree u

/-- `done` of `t` returns `u`. -/
def Leads (tree : TaskTree) (t u : Nat) : Prop := tree.next t = some u

def Chain (tree : TaskTree) (q : Nat × Nat) (t : Nat) : Prop :=
  ∃ l h, tree.subtasks q.1 = some l ∧ l[q.2]? = some h ∧ ReflTransGen tree.Leads h t

theorem Chain.place_eq (hchain : tree.Chain q t) : tree.place t = some q := by
  obtain ⟨l, h, hl, hh, hleads⟩ := hchain
  induction hleads with
  | refl => exact tree.place_child _ _ _ _ hl hh
  | tail _ hnext ih =>
      rw [tree.place_next _ _ hnext]
      exact ih

theorem InTree.chain (ht : tree.InTree t) (hplace : tree.place t = some q) : tree.Chain q t ∧ tree.InTree q.1 := by
  induction ht with
  | root =>
      rw [tree.place_root] at hplace
      cases hplace
  | @child p t l hp hl ht _ =>
      obtain ⟨i, hi⟩ := List.mem_iff_getElem?.1 ht
      rw [tree.place_child p i t l hl hi] at hplace
      cases hplace
      exact ⟨⟨l, t, hl, hi, .refl⟩, hp⟩
  | @next t u ht hnext ih =>
      rw [tree.place_next t u hnext] at hplace
      obtain ⟨⟨l, h, hl, hh, hleads⟩, hq⟩ := ih hplace
      exact ⟨⟨l, h, hl, hh, hleads.tail hnext⟩, hq⟩

theorem Chain.inTree (hchain : tree.Chain q t) (hq : tree.InTree q.1) : tree.InTree t := by
  obtain ⟨l, h, hl, hh, hleads⟩ := hchain
  induction hleads with
  | refl => exact hq.child hl (List.mem_of_getElem? hh)
  | tail _ hnext ih => exact ih.next hnext

theorem Chain.trans (hchain : tree.Chain q t) (hleads : ReflTransGen tree.Leads t u) : tree.Chain q u := by
  obtain ⟨l, h, hl, hh, hfirst⟩ := hchain
  exact ⟨l, h, hl, hh, hfirst.trans hleads⟩

theorem Chain.before (hchain : tree.Chain q u) (hnext : tree.next t = some u) : tree.Chain q t := by
  obtain ⟨l, h, hl, hh, hleads⟩ := hchain
  rcases hleads.cases_tail with rfl | ⟨v, hleads, hv⟩
  · exact absurd hnext (tree.next_ne_child _ u t l hl (List.mem_of_getElem? hh))
  · rw [tree.next_injective t v u hnext hv]
    exact ⟨l, h, hl, hh, hleads⟩

/-- A chain has one last task. -/
theorem Chain.last_unique (ht : tree.Chain q t) (hu : tree.Chain q u) (hlast : tree.next t = none)
    (hlast' : tree.next u = none) : t = u := by
  obtain ⟨l, h, hl, hh, hleads⟩ := ht
  obtain ⟨l', h', hl', hh', hleads'⟩ := hu
  rw [hl] at hl'
  cases hl'
  rw [hh] at hh'
  cases hh'
  have hunique : Relator.RightUnique tree.Leads := by
    intro a b c hb hc
    rw [TaskTree.Leads] at hb hc
    rw [hb] at hc
    exact Option.some.inj hc
  have hstays : ∀ {a b : Nat}, tree.next a = none → ReflTransGen tree.Leads a b → a = b := by
    intro a b hnone hreach
    rcases hreach.cases_head with heq | ⟨c, hc, -⟩
    · exact heq
    · rw [TaskTree.Leads, hnone] at hc
      cases hc
  rcases ReflTransGen.total_of_right_unique hunique hleads hleads' with hreach | hreach
  · exact hstays hlast hreach
  · exact (hstays hlast' hreach).symm

theorem exists_last (tree : TaskTree) (t : Nat) : ∃ u, ReflTransGen tree.Leads t u ∧ tree.next u = none := by
  induction t using tree.wellFounded.induction with
  | _ t ih =>
      rcases hnext : tree.next t with _ | v
      · exact ⟨t, .refl, hnext⟩
      · obtain ⟨u, hreach, hlast⟩ := ih v (Or.inl hnext)
        exact ⟨u, .head hnext hreach, hlast⟩

theorem Chain.below (hchain : tree.Chain q t) :
    TransGen (fun u t => tree.next t = some u ∨ ∃ l, tree.subtasks t = some l ∧ u ∈ l) t q.1 := by
  obtain ⟨l, h, hl, hh, hleads⟩ := hchain
  induction hleads with
  | refl => exact .single (Or.inr ⟨l, hl, List.mem_of_getElem? hh⟩)
  | tail _ hnext ih => exact .head (Or.inl hnext) ih

theorem Chain.ne (hchain : tree.Chain q t) : t ≠ q.1 := by
  rintro rfl
  exact tree.wellFounded.transGen.irrefl.irrefl _ hchain.below

end TaskTree

end WorkflowModel.Kernel.SubTask
