import WorkflowModel.Proof.RBTreeErase

/-!
# Walking

The next node on one side is the first one of the subtree there, and without a subtree it is the first node
above that has the place on its other side. A loop that goes on until there is none visits the nodes in order.
-/

namespace WorkflowModel.Kernel.RBTree

open RedBlack RedBlack.ColoredTree RedBlack.Path

variable {m : Memory} {path : Path Nat} {t near far : ColoredTree Nat} {side : Side} {c : Color} {parent : Option Nat}
  {x fuel : Nat}

theorem exists_extreme_head {z : Nat} (side : Side) (h : Held m parent t) (hroot : t.root = some z)
    (hfuel : t.inorder.length < fuel) :
    ∃ y, extreme side.other fuel z m = some y ∧ (t.walk side).head? = some y := by
  have hne : t ≠ .leaf := by
    rintro rfl
    cases hroot
  obtain ⟨q, c, y, far, rfl, hside⟩ := exists_extreme side.other hne
  have hlength : q.length < fuel := by
    have := length_le_entries q
    rw [length_fill] at hfuel
    omega
  refine ⟨y, extreme_spec h hside hroot hlength, head_walk_fill hside ?_⟩
  rw [walk_branch_other]
  cases side <;> rfl

theorem endNode_spec (side : Side) (h : Represents m t) (hfuel : t.inorder.length < fuel) :
    endNode side.other fuel m = some (t.walk side).head? := by
  have hroot : m.root = t.root := h.above
  cases hr : t.root with
  | none =>
      obtain rfl := root_eq_none.mp hr
      simp only [endNode, hroot, hr]
      cases side <;> rfl
  | some z =>
      obtain ⟨y, hy, hhead⟩ := exists_extreme_head side h.below hr hfuel
      simp only [endNode, hroot, hr, hy, hhead, Option.map_some]

/-- The loop upwards finds the first node beyond the hole. -/
theorem climb_spec (h : Stands m path t) (hroot : t.root = some x) (hfuel : path.length < fuel) :
    climb side fuel x m = some (beyond side path).head? := by
  induction path generalizing t x fuel with
  | nil =>
      obtain ⟨fuel, rfl⟩ : ∃ k, fuel = k + 1 := ⟨fuel - 1, by simp at hfuel; omega⟩
      have hx : (m.node x).parent = none := h.below.parent_root hroot
      simp only [climb, hx]
      cases side <;> rfl
  | cons f path ih =>
      obtain ⟨fuel, rfl⟩ : ∃ k, fuel = k + 1 := ⟨fuel - 1, by simp at hfuel; omega⟩
      obtain ⟨side', c, p, sibling⟩ := f
      have hx : (m.node x).parent = some p := h.below.parent_root hroot
      have hp : m.node p = cell side' (top path) c (some x) sibling.root := by
        rw [← hroot]
        exact h.above.1
      by_cases hside : side' = side
      · subst hside
        have hchild : some x = (m.node p).child side' := by rw [hp, child_cell]
        simp only [climb, hx, if_pos hchild]
        rw [beyond_cons]
        exact ih (stands_cons.mp h) root_branch (by simp at hfuel; omega)
      · obtain rfl : side' = side.other := by
          cases side' <;> cases side <;> first | rfl | exact absurd rfl hside
        have hchild : some x ≠ (m.node p).child side := by
          rw [hp, cell_other, child_cell]
          exact fun heq => h.sibling_ne hroot heq.symm
        simp only [climb, hx, if_neg hchild]
        rw [beyond_cons_other]
        rfl

/-- The neighbour of a node on one side is where a walk to this side goes from there. -/
theorem neighbour_spec (h : Stands m path (branch side c near x far))
    (hfuel : (fill path (branch side c near x far)).inorder.length < fuel) :
    neighbour side fuel x m = some (near.walk side ++ beyond side path).head? := by
  obtain ⟨hx, hnear, -⟩ := held_branch.mp h.below
  have hchild : (m.node x).child side = near.root := by rw [hx, child_cell]
  rw [length_fill] at hfuel
  cases hr : near.root with
  | none =>
      obtain rfl := root_eq_none.mp hr
      have hlength : path.length < fuel := by
        have := length_le_entries path
        omega
      simp only [neighbour, hchild, hr]
      rw [climb_spec h root_branch hlength]
      cases side <;> rfl
  | some z =>
      have hlength : near.inorder.length < fuel := by
        have : near.inorder.length < (branch side c near x far).inorder.length := by
          cases side <;> simp [branch, inorder] <;> omega
        omega
      obtain ⟨y, hy, hhead⟩ := exists_extreme_head side hnear hr hlength
      simp only [neighbour, hchild, hr, hy, Option.map_some, List.head?_append, hhead]
      rfl

theorem neighbour_walk {before after : List Nat} (side : Side) (h : Represents m t) (ht : t.walk side = before ++ x :: after)
    (hfuel : t.inorder.length < fuel) : neighbour side fuel x m = some after.head? := by
  have hnodup : (t.walk side).Nodup := nodup_walk.mpr h.nodup
  have hmem : x ∈ t.inorder := by
    apply mem_walk.mp
    rw [ht]
    exact List.mem_append_cons_self
  obtain ⟨path, c, near, far, rfl⟩ := exists_fill_branch side hmem
  have hsplit : before ++ x :: after = ((beyond side.other path).reverse ++ far.walk side)
      ++ x :: (near.walk side ++ beyond side path) := by
    rw [← ht, walk_fill, walk_branch]
    simp
  rw [ht, List.nodup_middle, List.nodup_cons, List.mem_append, not_or] at hnodup
  obtain ⟨⟨hbefore, hafter⟩, -⟩ := hnodup
  obtain ⟨-, -, rfl⟩ := (List.append_cons_inj_of_notMem hbefore hafter).mp hsplit
  exact neighbour_spec (represents_fill.mp h) hfuel

theorem nodesFrom_spec {rounds : Nat} {after : List Nat} (before : List Nat) (h : Represents m t)
    (ht : t.inorder = before ++ after) (hfuel : t.inorder.length < fuel) (hrounds : after.length ≤ rounds) :
    nodesFrom fuel rounds after.head? m = some after := by
  induction after generalizing before rounds with
  | nil => cases rounds <;> rfl
  | cons x after ih =>
      obtain ⟨rounds, rfl⟩ : ∃ k, rounds = k + 1 := ⟨rounds - 1, by simp at hrounds; omega⟩
      have hnext : rbNext fuel x m = some after.head? := neighbour_walk .right h ht hfuel
      have hrest : nodesFrom fuel rounds after.head? m = some after :=
        ih (before ++ [x]) (by rw [ht]; simp) (by simp at hrounds; omega)
      simp only [List.head?_cons, nodesFrom, hnext, Option.bind_eq_bind, Option.bind_some, hrest]
      rfl

theorem nodes_spec (h : Represents m t) (hfuel : t.inorder.length < fuel) : nodes fuel m = some t.inorder := by
  have hfirst : rbFirst fuel m = some t.inorder.head? := endNode_spec .right h hfuel
  simp only [nodes, hfirst, Option.bind_eq_bind, Option.bind_some]
  exact nodesFrom_spec [] h rfl hfuel (Nat.le_of_lt hfuel)

end WorkflowModel.Kernel.RBTree
