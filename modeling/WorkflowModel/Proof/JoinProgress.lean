import Mathlib.Data.Set.Finite.Lattice
import WorkflowModel.Proof.JoinCounts

/-!
# Every step brings a task further

A tree has finitely many tasks, and a task can be called, dispatched, finished, done and left only once. Each step
brings one task further and none back, so what the tasks still have before them bounds the steps to come.
-/

namespace WorkflowModel.Kernel.SubTask

open Relation Finset

variable {tree : TaskTree} {t u p i : Nat} {l : List Nat} {q : Nat × Nat}

namespace TaskTree

theorem InTree.reach (ht : tree.InTree t) :
    ReflTransGen (fun t u => tree.next t = some u ∨ ∃ l, tree.subtasks t = some l ∧ u ∈ l) tree.root t := by
  induction ht with
  | root => exact .refl
  | child _ hl ht ih => exact ih.tail (Or.inr ⟨_, hl, ht⟩)
  | next _ hnext ih => exact ih.tail (Or.inl hnext)

/-- Each task leads to finitely many others at once, and to none through infinitely many. -/
theorem finite_reach (tree : TaskTree) (t : Nat) :
    {u | ReflTransGen (fun t u => tree.next t = some u ∨ ∃ l, tree.subtasks t = some l ∧ u ∈ l) t u}.Finite := by
  induction t using tree.wellFounded.induction with
  | _ t ih =>
      have hsucc : {u | tree.next t = some u ∨ ∃ l, tree.subtasks t = some l ∧ u ∈ l}.Finite := by
        apply ((tree.next t).toList ++ (tree.subtasks t).getD []).finite_toSet.subset
        rintro u (hnext | ⟨l, hl, hu⟩)
        · simp [hnext]
        · simp [hl, hu]
      apply ((Set.finite_singleton t).union (hsucc.biUnion ih)).subset
      intro u hu
      rcases ReflTransGen.cases_head hu with rfl | ⟨v, hv, hreach⟩
      · exact Or.inl rfl
      · exact Or.inr (Set.mem_biUnion hv hreach)

theorem finite_inTree (tree : TaskTree) : {t | tree.InTree t}.Finite :=
  (tree.finite_reach tree.root).subset fun _ ht => ht.reach

noncomputable def tasks (tree : TaskTree) : Finset Nat := tree.finite_inTree.toFinset

theorem mem_tasks : t ∈ tree.tasks ↔ tree.InTree t := by
  simp [tasks]

/-- How far a task has come, of the things that are counted. A call that is in progress is worth less than the same
call when it is over. The last task of a chain also leaves the parallel task. -/
def stage (tree : TaskTree) (count : Token → Nat) (t : Nat) : Nat :=
  count (.call t) + 2 * count (.dispatched t) + count (.finish t) + 2 * count (.done t)
    + if tree.next t = none then (tree.place t).elim 0 fun q => count (.left q) else 0

/-- What one token adds to the stage of `t`. -/
def value (tree : TaskTree) (t : Nat) : Token → Nat
  | .call u => if u = t then 1 else 0
  | .dispatched u => if u = t then 2 else 0
  | .finish u => if u = t then 1 else 0
  | .done u => if u = t then 2 else 0
  | .left q => if tree.next t = none ∧ tree.place t = some q then 1 else 0
  | _ => 0

theorem stage_worth (tree : TaskTree) (tokens : List Token) (t : Nat) :
    tree.stage (Ledger.worth tokens) t = (tokens.map (tree.value t)).sum := by
  induction tokens with
  | nil =>
      simp only [stage, Ledger.worth, List.countP_nil, List.map_nil, List.sum_nil]
      split
      · cases tree.place t <;> rfl
      · rfl
  | cons k tokens ih =>
      rw [List.map_cons, List.sum_cons, ← ih]
      simp only [stage, Ledger.worth, List.countP_cons]
      by_cases hlast : tree.next t = none <;> rcases hplace : tree.place t with _ | q <;> cases k <;>
        simp [value, hlast, hplace, Token.counts, eq_comm]
      all_goals grind

end TaskTree

namespace Ledger

variable {b b' : Ledger}

theorem Balanced.stage_le (h : Balanced tree b) (ht : tree.InTree t) : tree.stage b.tally t ≤ 5 := by
  have hcall := h.call_le_one ht
  have hdone : b.tally (.finish t) + b.tally (.done t) ≤ 1 := by
    rcases hl : tree.subtasks t with _ | l
    · have := h.leaf t hl
      omega
    · have := h.parallel t l hl
      split at this <;> omega
  have hleft : (if tree.next t = none then (tree.place t).elim 0 fun q => b.tally (.left q) else 0) ≤ 1 := by
    split
    case isFalse => exact Nat.zero_le 1
    case isTrue hlast =>
      rcases hplace : tree.place t with _ | q
      · exact Nat.zero_le 1
      · obtain ⟨hchain, hq⟩ := ht.chain hplace
        have := h.last q t hchain hq hlast
        simp only [Option.elim_some]
        omega
  unfold TaskTree.stage
  omega

/-- No task of the tree has gone back, and one of them has come further. -/
structure Advanced (tree : TaskTree) (b b' : Ledger) : Prop where
  le : ∀ t, tree.stage b.tally t ≤ tree.stage b'.tally t
  lt : ∃ t, tree.InTree t ∧ tree.stage b.tally t < tree.stage b'.tally t

theorem Exchanged.stage {minus plus : List Token} (h : b.Exchanged b' minus plus) (t : Nat) :
    tree.stage b'.tally t + tree.stage (worth minus) t = tree.stage b.tally t + tree.stage (worth plus) t := by
  have hcall := h (.call t)
  have hdispatched := h (.dispatched t)
  have hfinish := h (.finish t)
  have hdone := h (.done t)
  unfold TaskTree.stage
  split
  case isFalse => omega
  case isTrue =>
    rcases tree.place t with _ | q
    · simp only [Option.elim_none]
      omega
    · have hleft := h (.left q)
      simp only [Option.elim_some]
      omega

/-- What comes is worth more than what goes, for the task `t`, and at least as much for the others. -/
theorem Exchanged.advanced {minus plus : List Token} (h : b.Exchanged b' minus plus) (ht : tree.InTree t)
    (hle : ∀ u, (minus.map (tree.value u)).sum ≤ (plus.map (tree.value u)).sum)
    (hlt : (minus.map (tree.value t)).sum < (plus.map (tree.value t)).sum) : b.Advanced tree b' := by
  have hstage : ∀ u, tree.stage b'.tally u + (minus.map (tree.value u)).sum
      = tree.stage b.tally u + (plus.map (tree.value u)).sum := by
    intro u
    rw [← tree.stage_worth, ← tree.stage_worth]
    exact h.stage u
  constructor
  · intro u
    have := hstage u
    have := hle u
    omega
  · have := hstage t
    exact ⟨t, ht, by omega⟩

noncomputable def work (tree : TaskTree) (b : Ledger) : Nat := ∑ t ∈ tree.tasks, (5 - tree.stage b.tally t)

theorem Advanced.work_lt (h : b.Advanced tree b') (hb' : Balanced tree b') : b'.work tree < b.work tree := by
  apply sum_lt_sum
  · intro t _
    exact Nat.sub_le_sub_left (h.le t) 5
  · obtain ⟨t, ht, hlt⟩ := h.lt
    refine ⟨t, TaskTree.mem_tasks.2 ht, ?_⟩
    have := hb'.stage_le ht
    omega

section

attribute [local simp] TaskTree.value

theorem Exchanged.advanced_call {k : Token} (h : b.Exchanged b' [.call t] [k, .dispatched t])
    (ht : tree.InTree t) : b.Advanced tree b' := by
  apply h.advanced ht
  · intro u
    simp only [TaskTree.value, List.map_cons, List.map_nil, List.sum_cons, List.sum_nil]
    split <;> omega
  · simp

theorem Exchanged.advanced_complete (h : b.Exchanged b' [.pending t] [.finish t]) (ht : tree.InTree t) :
    b.Advanced tree b' := by
  apply h.advanced ht <;> simp

theorem Exchanged.advanced_handOver (h : b.Exchanged b' [.handOver t] [.call t]) (ht : tree.InTree t) :
    b.Advanced tree b' := by
  apply h.advanced ht <;> simp

theorem Exchanged.advanced_loop {tokens : List Token} (h : b.Exchanged b' [.loop p i] (.call t :: tokens))
    (ht : tree.InTree t) : b.Advanced tree b' := by
  apply h.advanced ht <;> simp

theorem Exchanged.advanced_finish {plus : List Token} (h : b.Exchanged b' [.finish t] plus)
    (hplus : Token.done t ∈ plus) (ht : tree.InTree t) : b.Advanced tree b' := by
  have hvalue : ∀ u, tree.value u (.done t) ≤ (plus.map (tree.value u)).sum := by
    intro u
    exact List.single_le_sum (by simp) _ (List.mem_map_of_mem hplus)
  apply h.advanced ht
  · intro u
    calc
      ([Token.finish t].map (tree.value u)).sum ≤ tree.value u (.done t) := by
        simp only [List.map_singleton, List.sum_singleton, TaskTree.value]
        split <;> omega
      _ ≤ (plus.map (tree.value u)).sum := hvalue u
  · calc
      ([Token.finish t].map (tree.value t)).sum < tree.value t (.done t) := by simp
      _ ≤ (plus.map (tree.value t)).sum := hvalue t

theorem Exchanged.advanced_leave {tokens : List Token} (h : b.Exchanged b' [.leave (p, i)] (.left (p, i) :: tokens))
    (hchain : tree.Chain (p, i) t) (hp : tree.InTree p) : b.Advanced tree b' := by
  obtain ⟨u, hleads, hlast⟩ := tree.exists_last t
  have hlastChain := hchain.trans hleads
  apply h.advanced (hlastChain.inTree hp)
  · simp
  · simp [hlast, hlastChain.place_eq]

end

end Ledger

end WorkflowModel.Kernel.SubTask
