import WorkflowModel.Proof.RBTreeMemory

/-!
# Inserting

`rb_insert_color` goes up from a red node. The tree is in order but for this node, whose parent may be red as
well: a red uncle takes the red of both to the grandparent, and with a black one two rotations at most end it.
-/

namespace WorkflowModel.Kernel.RBTree

open RedBlack RedBlack.ColoredTree RedBlack.Path

variable {m : Memory} {path : Path Nat} {t a b sibling uncle : ColoredTree Nat} {side side' : Side} {c : Color}
  {x p g n : Nat}

theorem exists_blackRoot {l r : ColoredTree Nat} (h : Represents m (.node c l x r)) :
    ∃ m', m.root.map (fun root => m.setColor root .black) = some m' ∧ Represents m' (.node .black l x r) := by
  have hroot : m.root = some x := h.above
  have hblack : Stands (m.setColor x .black) [] (branch .left .black l x r) :=
    Stands.setColor (show Stands m [] (branch .left c l x r) from h) .black
  rw [hroot]
  exact ⟨_, rfl, hblack⟩

theorem rbInsertColor_of_root (h : Stands m [] t) (hroot : t.root = some x) (ht : t.color = .red)
    (hbalanced : t.Balanced n) (fuel : Nat) :
    ∃ m' t', rbInsertColor (fuel + 1) x m = some m' ∧ Represents m' t' ∧ t'.inorder = t.inorder ∧ IsRedBlack t' := by
  have hx : (m.node x).parent = none := h.below.parent_root hroot
  have hexit : rbInsertColor (fuel + 1) x m = m.root.map fun root => m.setColor root .black := by
    simp only [rbInsertColor, hx]
  rw [hexit]
  cases hbalanced with
  | leaf => cases hroot
  | black => cases ht
  | red z hl hr =>
      obtain ⟨m', hm', hblack⟩ := exists_blackRoot h
      exact ⟨m', _, hm', hblack, rfl, rfl, _, .black z hl hr⟩

theorem rbInsertColor_of_black {f : Frame Nat} (h : Stands m (f :: path) t) (hf : f.color = .black)
    (hroot : t.root = some x) (hredblack : IsRedBlack (fill (f :: path) t)) (fuel : Nat) :
    ∃ m', rbInsertColor (fuel + 1) x m = some m' ∧ Represents m' (fill (f :: path) t) := by
  have hx : (m.node x).parent = some f.entry := h.below.parent_root hroot
  have hcolor : (m.node f.entry).color = .black := by rw [h.above.1, color_cell, hf]
  have hexit : rbInsertColor (fuel + 1) x m = m.root.map fun root => m.setColor root .black := by
    simp only [rbInsertColor, hx, hcolor, reduceCtorEq, if_false]
  rw [hexit]
  have hwhole : Represents m (fill (f :: path) t) := represents_fill.mpr h
  obtain ⟨hblack, -⟩ := hredblack
  cases hfill : fill (f :: path) t with
  | leaf =>
      have hmem : x ∈ (fill (f :: path) t).inorder := mem_fill.mpr (.inl (root_mem_inorder hroot))
      rw [hfill] at hmem
      cases hmem
  | node c l z r =>
      rw [hfill] at hwhole hblack
      obtain ⟨m', hm', hblack'⟩ := exists_blackRoot hwhole
      obtain rfl : c = .black := hblack
      exact ⟨m', hm', hblack'⟩

theorem exists_lastRotation (h : Stands m (⟨side, .black, g, uncle⟩ :: path) (branch side .red a p b)) :
    ∃ m', rotate side.other g ((m.setColor p .black).setColor g .red) = some m'
      ∧ Stands m' path (branch side.other .black (branch side.other .red uncle g b) p a) := by
  have hgparent : Stands ((m.setColor p .black).setColor g .red) path
      (branch side .red (branch side .black a p b) g uncle) :=
    (stands_cons.mp (h.setColor .black)).setColor .red
  have hother : branch side .red (branch side .black a p b) g uncle
      = branch side.other .red uncle g (branch side.other .black b p a) := by
    rw [branch_other, branch_other]
  rw [hother] at hgparent
  exact hgparent.rotate

/-- With a black uncle both red nodes end below the same black one, and no red node is above it that was not there. -/
theorem insertRotate_spec (h : Stands m (⟨side', .red, p, sibling⟩ :: ⟨side, .black, g, uncle⟩ :: path) t)
    (hroot : t.root = some x) (ht : t.color = .red) (hbalanced : t.Balanced n) (hsibling : sibling.Balanced n)
    (hs : sibling.color = .black) (huncle : uncle.Balanced n) (hu : uncle.color = .black) :
    ∃ m' z y far near, insertRotate side x p g m = some (z, m') ∧ near.root = some z
      ∧ Stands m' path (branch side.other .black far y near) ∧ (branch side.other .black far y near).Balanced (n + 1)
      ∧ (fill path (branch side.other .black far y near)).inorder
        = (fill (⟨side', .red, p, sibling⟩ :: ⟨side, .black, g, uncle⟩ :: path) t).inorder := by
  have hp : m.node p = cell side' (some g) .red t.root sibling.root := h.above.1
  by_cases hside : side' = side
  · -- the node is on the outer side
    subst hside
    have houter : (m.node p).child side'.other ≠ some x := by
      rw [hp, child_other_cell]
      exact h.sibling_ne hroot
    obtain ⟨m', hm', hstands⟩ := exists_lastRotation (stands_cons.mp h)
    refine ⟨m', x, p, _, t, ?_, hroot, hstands, ?_, inorder_fill_congr path ?_⟩
    · simp only [insertRotate, houter, if_false, Option.pure_def, Option.bind_eq_bind, Option.bind_some, hm']
    · exact balanced_black.mpr ⟨balanced_red.mpr ⟨huncle, hsibling, hu, hs⟩, hbalanced⟩
    · cases side' <;> simp [Frame.fill, branch, inorder, Side.other]
  · -- the node is on the inner side
    obtain rfl : side' = side.other := by
      cases side' <;> cases side <;> first | rfl | exact absurd rfl hside
    obtain ⟨l, z, r, rfl⟩ := exists_red_branch side ht
    rw [root_branch] at hroot
    obtain rfl := Option.some.inj hroot
    obtain ⟨hl, hr, hcl, hcr⟩ := balanced_red.mp hbalanced
    have hinner : (m.node p).child side.other = some z := by rw [hp, child_cell, root_branch]
    have hparent := stands_cons.mp h
    rw [Frame.fill, branch_other] at hparent
    obtain ⟨m₁, hm₁, hfirst⟩ := hparent.rotate
    obtain ⟨m', hm', hstands⟩ := exists_lastRotation hfirst
    refine ⟨m', p, z, _, _, ?_, root_branch, hstands, ?_, inorder_fill_congr path ?_⟩
    · simp only [insertRotate, hinner, if_true, hm₁, Option.pure_def, Option.bind_eq_bind, Option.bind_some, hm']
    · exact balanced_black.mpr
        ⟨balanced_red.mpr ⟨huncle, hr, hu, hcr⟩, balanced_red.mpr ⟨hsibling, hl, hs, hcl⟩⟩
    · cases side <;> simp [Frame.fill, branch, inorder, Side.other]

section Round

variable (h : Stands m (⟨side', .red, p, sibling⟩ :: ⟨side, .black, g, uncle⟩ :: path) t) (hroot : t.root = some x)

include h hroot

theorem insert_reads : (m.node x).parent = some p ∧ (m.node p).color = .red ∧ (m.node p).parent = some g
    ∧ m.sideOf g (some p) = side ∧ (m.node g).child side.other = uncle.root
    ∧ ∀ u, uncle.root = some u → (m.node u).color = uncle.color := by
  have hp : m.node p = cell side' (some g) .red t.root sibling.root := h.above.1
  have hparent := stands_cons.mp h
  have hg : m.node g = cell side (top path) .black (some p) uncle.root := by
    have := hparent.above.1
    rwa [Frame.fill, root_branch] at this
  have hside : m.sideOf g (some p) = side := by
    have := hparent.sideOf (.inl (by rintro heq; cases side' <;> cases heq))
    rwa [Frame.fill, root_branch] at this
  refine ⟨h.below.parent_root hroot, ?_, ?_, hside, ?_, ?_⟩
  · rw [hp, color_cell]
  · rw [hp, parent_cell]
  · rw [hg, child_other_cell]
  · exact fun u hu => hparent.above.2.1.color_root hu

theorem rbInsertColor_redUncle {u : Nat} (hu : uncle.root = some u) (hcolor : uncle.color = .red) (fuel : Nat) :
    rbInsertColor (fuel + 1) x m
      = rbInsertColor fuel g (((m.setColor u .black).setColor p .black).setColor g .red) := by
  obtain ⟨hx, hpc, hpp, hside, hg, huncle⟩ := insert_reads h hroot
  have huc : (m.node u).color = .red := (huncle u hu).trans hcolor
  simp only [rbInsertColor, hx, hpc, if_true, hpp, Option.bind_eq_bind, Option.bind_some, hside, hg, hu, huc]

theorem rbInsertColor_blackUncle (hcolor : uncle.color = .black) (fuel : Nat) :
    rbInsertColor (fuel + 1) x m = (insertRotate side x p g m).bind fun r => rbInsertColor fuel r.1 r.2 := by
  obtain ⟨hx, hpc, hpp, hside, hg, huncle⟩ := insert_reads h hroot
  cases hu : uncle.root with
  | none =>
      simp only [rbInsertColor, hx, hpc, if_true, hpp, Option.bind_eq_bind, Option.bind_some, hside, hg, hu]
  | some u =>
      have huc : (m.node u).color = .black := (huncle u hu).trans hcolor
      simp only [rbInsertColor, hx, hpc, if_true, hpp, Option.bind_eq_bind, Option.bind_some, hside, hg, hu, huc,
        reduceCtorEq, if_false]

end Round

theorem Stands.recolour {u : Nat}
    (h : Stands m (⟨side', .red, p, sibling⟩ :: ⟨side, .black, g, branch side c a u b⟩ :: path) t) :
    Stands (((m.setColor u .black).setColor p .black).setColor g .red) path
      (branch side .red (branch side' .black t p sibling) g (branch side .black a u b)) := by
  have huncle := (stands_sibling.mp (stands_cons.mp h)).setColor .black
  have hparent := (stands_sibling.mpr huncle).setColor .black
  exact (stands_cons.mp hparent).setColor .red

/-- `rb_insert_color` makes a red-black tree of a tree that is one but for a red node under a red one. -/
theorem rbInsertColor_spec {fuel : Nat} (h : Stands m path t) (hroot : t.root = some x) (ht : t.color = .red)
    (hbalanced : t.Balanced n) (hpath : Fits path n) (hfuel : path.length < fuel) :
    ∃ m' t', rbInsertColor fuel x m = some m' ∧ Represents m' t' ∧ t'.inorder = (fill path t).inorder
      ∧ IsRedBlack t' := by
  induction fuel generalizing m path t x n with
  | zero => omega
  | succ fuel ih =>
      cases hpath with
      | nil => exact rbInsertColor_of_root h hroot ht hbalanced fuel
      | black side p hsibling hpath =>
          have hredblack : IsRedBlack (fill (⟨side, .black, p, _⟩ :: _) t) :=
            isRedBlack_fill (.black side p hsibling hpath) hbalanced nofun
          obtain ⟨m', hm', hstands⟩ := rbInsertColor_of_black h rfl hroot hredblack fuel
          exact ⟨m', _, hm', hstands, rfl, hredblack⟩
      | red side' p hsibling hs hpath hp =>
          cases hpath with
          | nil => cases hp
          | red => cases hp
          | @black uncle path _ side g huncle hpath =>
              cases hu : uncle.color with
              | red =>
                  obtain ⟨a, u, b, rfl⟩ := exists_red_branch side hu
                  obtain ⟨ha, hb, -⟩ := balanced_red.mp huncle
                  rw [rbInsertColor_redUncle h hroot root_branch color_branch]
                  have hbranch : (branch side .red (branch side' .black t p _) g
                      (branch side .black a u b)).Balanced (n + 1) :=
                    balanced_red.mpr ⟨balanced_black.mpr ⟨hbalanced, hsibling⟩, balanced_black.mpr ⟨ha, hb⟩,
                      color_branch, color_branch⟩
                  obtain ⟨m', t', hm', hstands, horder, hredblack⟩ :=
                    ih h.recolour root_branch color_branch hbranch hpath (by simp at hfuel; omega)
                  refine ⟨m', t', hm', hstands, horder.trans (inorder_fill_congr path ?_), hredblack⟩
                  cases side' <;> cases side <;> simp [Frame.fill, branch, inorder]
              | black =>
                  obtain ⟨m₁, z, y, far, near, hm₁, hz, hstands, hbranch, horder⟩ :=
                    insertRotate_spec h hroot ht hbalanced hsibling hs huncle hu
                  rw [rbInsertColor_blackUncle h hroot hu, hm₁, Option.bind_some]
                  rw [branch_other] at hstands hbranch horder
                  obtain ⟨fuel, rfl⟩ : ∃ k, fuel = k + 1 := ⟨fuel - 1, by simp at hfuel; omega⟩
                  have hredblack : IsRedBlack (fill path (branch side .black near y far)) :=
                    isRedBlack_fill hpath hbranch fun _ => color_branch
                  have hnear : Stands m₁ (⟨side, .black, y, far⟩ :: path) near := stands_cons.mpr hstands
                  obtain ⟨m', hm', hstands'⟩ := rbInsertColor_of_black hnear rfl hz hredblack fuel
                  exact ⟨m', _, hm', hstands', horder, hredblack⟩

end WorkflowModel.Kernel.RBTree
