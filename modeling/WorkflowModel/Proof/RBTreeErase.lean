import WorkflowModel.Proof.RBTreeMemory
import Mathlib.Data.List.Induction

/-!
# Erasing

A node that is taken out leaves a tree in its hole that is one black node short. `__rb_erase_color` takes the
place up as long as the sibling and its children are black, and ends with a red node that becomes black or
with rotations around the parent. A node with two children is not taken out itself: the next one is, and goes
to its place.
-/

namespace WorkflowModel.Kernel.RBTree

open RedBlack RedBlack.ColoredTree RedBlack.Path

variable {m : Memory} {path : Path Nat} {t a b near far sibling : ColoredTree Nat} {side : Side} {c d : Color}
  {parent : Option Nat} {x p s n : Nat}

theorem Held.isBlack (h : Held m parent t) : m.isBlack t.root = true ↔ t.color = .black := by
  cases t with
  | leaf => exact iff_of_true rfl rfl
  | node c left x right =>
      show decide ((m.node x).color = .black) = true ↔ _
      rw [h.1, decide_eq_true_iff]
      exact Iff.rfl

theorem HeldPath.root_mem (h : HeldPath m (some x) path) : ∃ y, m.root = some y ∧ (y = x ∨ y ∈ entries path) := by
  induction path generalizing x with
  | nil => exact ⟨x, h, .inl rfl⟩
  | cons f path ih =>
      obtain ⟨y, hy, hmem⟩ := ih h.2.2
      refine ⟨y, hy, .inr ?_⟩
      rcases hmem with rfl | hmem
      · exact List.mem_cons_self
      · exact List.mem_cons_of_mem _ (List.mem_append_right _ hmem)

theorem Stands.root_ne {f : Frame Nat} (h : Stands m (f :: path) t) : t.root ≠ m.root := by
  obtain ⟨y, hy, hmem⟩ := h.above.2.2.root_mem
  rw [hy]
  intro heq
  obtain ⟨-, -, hdisjoint⟩ := nodup_fill.mp h.nodup
  refine hdisjoint y (root_mem_inorder heq) ?_
  rcases hmem with rfl | hmem
  · exact List.mem_cons_self
  · exact List.mem_cons_of_mem _ (List.mem_append_right _ hmem)

theorem Stands.blacken (h : Stands m path t) : Stands (blacken t.root m) path t.blackened := by
  cases t with
  | leaf => exact h
  | node c left x right => exact (show Stands m path (branch .left c left x right) from h).setColor .black

theorem rbEraseColor_of_red (h : Stands m path t) (hcolor : t.color = .red) (hbalanced : t.blackened.Balanced (n + 1))
    (hpath : Fits path (n + 1)) (fuel : Nat) :
    ∃ m', rbEraseColor (fuel + 1) t.root (top path) m = some m' ∧ Represents m' (fill path t.blackened)
      ∧ IsRedBlack (fill path t.blackened) := by
  have hred : m.isBlack t.root ≠ true := by
    rw [Ne, h.below.isBlack, hcolor]
    nofun
  refine ⟨blacken t.root m, ?_, represents_fill.mpr h.blacken, isRedBlack_fill hpath hbalanced fun _ => color_blackened⟩
  rw [rbEraseColor, if_neg fun hloop => hred hloop.1]

theorem rbEraseColor_of_root (h : Stands m [] t) (hbalanced : t.Balanced n) (fuel : Nat) :
    ∃ m', rbEraseColor (fuel + 1) t.root none m = some m' ∧ Represents m' t.blackened ∧ IsRedBlack t.blackened := by
  have hroot : t.root = m.root := h.above.symm
  refine ⟨blacken t.root m, ?_, h.blacken, color_blackened, ?_⟩
  · rw [rbEraseColor, if_neg fun hloop => hloop.2 hroot]
  · cases hcolor : t.color with
    | red => exact ⟨n + 1, hbalanced.blackened hcolor⟩
    | black => exact ⟨n, by rwa [blackened_of_black hcolor]⟩

/-- A red sibling is rotated above the parent, and the sibling is then a black one. -/
theorem eraseRedSibling_spec (h : Stands m (⟨side, c, p, sibling⟩ :: path) t)
    (hpath : Fits (⟨side, c, p, sibling⟩ :: path) (n + 1)) (hs : sibling.root = some s) :
    ∃ m' s' c' sibling' path', eraseRedSibling side p s m = some (s', m') ∧ sibling'.root = some s'
      ∧ sibling'.color = .black ∧ Stands m' (⟨side, c', p, sibling'⟩ :: path') t
      ∧ Fits (⟨side, c', p, sibling'⟩ :: path') (n + 1)
      ∧ (fill (⟨side, c', p, sibling'⟩ :: path') t).inorder = (fill (⟨side, c, p, sibling⟩ :: path) t).inorder
      ∧ (c' = .red ∨ path' = path) := by
  have hcolor : (m.node s).color = sibling.color := h.above.2.1.color_root hs
  cases hsc : sibling.color with
  | black =>
      refine ⟨m, s, c, sibling, path, ?_, hs, hsc, h, hpath, rfl, .inr rfl⟩
      simp only [eraseRedSibling, hcolor, hsc, reduceCtorEq, if_false]
      rfl
  | red =>
      cases hpath with
      | red _ _ _ hblack => rw [hblack] at hsc; cases hsc
      | black _ _ hsibling hpath =>
          obtain ⟨b, z, d, rfl⟩ := exists_red_branch side hsc
          obtain rfl := Option.some.inj (root_branch.symm.trans hs)
          obtain ⟨hb, hd, hbc, hdc⟩ := balanced_red.mp hsibling
          have hblack := stands_sibling.mpr ((stands_sibling.mp h).setColor .black)
          have hparent : Stands ((m.setColor z .black).setColor p .red) path
              (branch side .red t p (branch side .black b z d)) := (stands_cons.mp hblack).setColor .red
          obtain ⟨m', hm', hrotated⟩ := hparent.rotate
          obtain ⟨c', b', w, d', rfl⟩ := exists_branch side hb.ne_leaf
          have hview : Stands m' (⟨side, .red, p, branch side c' b' w d'⟩ :: ⟨side, .black, z, d⟩ :: path) t :=
            stands_cons.mpr (stands_cons.mpr hrotated)
          refine ⟨m', w, .red, _, _, ?_, root_branch, hbc, hview, ?_, ?_, .inl rfl⟩
          · have hp : (m'.node p).child side.other = some w := by rw [hview.above.1, child_other_cell, root_branch]
            simp only [eraseRedSibling, hcolor, hsc, if_true, hm', Option.bind_eq_bind, Option.bind_some, hp]
            rfl
          · exact .red side p hb hbc (.black side z hd hpath) rfl
          · exact inorder_fill_congr path (inorder_rotate side .black .red .red .black t _ d p z)

/-- The last rotation: the sibling goes up with the color of the parent, which becomes black and has the short
tree below it. -/
theorem eraseLastRotation (h : Stands m (⟨side, c, p, branch side d a s b⟩ :: path) t) {m₁ : Memory}
    (hm₁ : m₁ = (m.setColor s (m.node p).color).setColor p .black) :
    ∃ m', rotate side p (RBTree.blacken ((m₁.node s).child side.other) m₁) = some m'
      ∧ Stands m' path (branch side c (branch side .black t p a) s b.blackened) := by
  have hcolor : (m.node p).color = c := by rw [h.above.1, color_cell]
  rw [hcolor] at hm₁
  have hs := stands_sibling.mpr ((stands_sibling.mp h).setColor c)
  have hp : Stands m₁ path (branch side .black t p (branch side c a s b)) := by
    rw [hm₁]
    exact (stands_cons.mp hs).setColor .black
  have hview : Stands m₁ (⟨side.other, c, s, a⟩ :: ⟨side.other, .black, p, t⟩ :: path) b := by
    refine stands_cons.mpr (stands_cons.mpr ?_)
    rw [Frame.fill, Frame.fill, branch_other, branch_other]
    exact hp
  have hchild : (m₁.node s).child side.other = b.root := by rw [hview.above.1, child_cell]
  rw [hchild]
  have hblack := stands_cons.mp (stands_cons.mp hview.blacken)
  rw [Frame.fill, Frame.fill, branch_other, branch_other] at hblack
  exact hblack.rotate

/-- The red child on the inner side goes up first, and its parent becomes the red one on the outer side. -/
theorem eraseFirstRotation {w : Nat}
    (h : Stands m (⟨side, c, p, branch side .black (branch side .red a w b) s far⟩ :: path) t) :
    ∃ m', rotate side.other s ((m.setColor w .black).setColor s .red) = some m'
      ∧ Stands m' (⟨side, c, p, branch side .black a w (branch side .red b s far)⟩ :: path) t := by
  have hs : Stands m (⟨side.other, c, p, t⟩ :: path) (branch side .black (branch side .red a w b) s far) :=
    stands_sibling.mp h
  have hw : Stands m (⟨side, .black, s, far⟩ :: ⟨side.other, c, p, t⟩ :: path) (branch side .red a w b) :=
    stands_cons.mpr hs
  have hred : Stands ((m.setColor w .black).setColor s .red) (⟨side.other, c, p, t⟩ :: path)
      (branch side .red (branch side .black a w b) s far) := (stands_cons.mp (hw.setColor .black)).setColor .red
  have hother : branch side .red (branch side .black a w b) s far
      = branch side.other .red far s (branch side.other .black b w a) := by rw [branch_other, branch_other]
  rw [hother] at hred
  obtain ⟨m', hm', hrotated⟩ := hred.rotate
  rw [branch_other, branch_other] at hrotated
  exact ⟨m', hm', stands_sibling.mpr hrotated⟩

/-- With a red child of the sibling the missing black is made up. -/
theorem eraseRedNephew_spec (h : Stands m (⟨side, c, p, branch side .black near s far⟩ :: path) t)
    (hred : near.color = .red ∨ far.color = .red) (ht : t.Balanced n) (hnear : near.Balanced n)
    (hfar : far.Balanced n) :
    ∃ m' l y r, eraseRedNephew side p s m = some m' ∧ Stands m' path (branch side c l y r)
      ∧ l.Balanced (n + 1) ∧ r.Balanced (n + 1) ∧ l.color = .black ∧ r.color = .black
      ∧ (branch side c l y r).inorder = (branch side c t p (branch side .black near s far)).inorder := by
  obtain ⟨hs, -, hfarHeld⟩ := held_branch.mp h.above.2.1
  have htest : m.isBlack ((m.node s).child side.other) = true ↔ far.color = .black := by
    rw [hs, child_other_cell]
    exact hfarHeld.isBlack
  cases hfc : far.color with
  | red =>
      obtain ⟨m', hm', hstands⟩ := eraseLastRotation h rfl
      refine ⟨m', _, s, far.blackened, ?_, hstands, balanced_black.mpr ⟨ht, hnear⟩, hfar.blackened hfc, color_branch,
        color_blackened, ?_⟩
      · have houter : ¬m.isBlack ((m.node s).child side.other) = true := by
          rw [htest, hfc]
          decide
        simp only [eraseRedNephew, if_neg houter, Option.pure_def, Option.bind_eq_bind, Option.bind_some]
        exact hm'
      · cases side <;> simp [branch, inorder]
  | black =>
      obtain ⟨a, w, b, rfl⟩ := exists_red_branch side (hred.resolve_right (by rw [hfc]; decide))
      obtain ⟨ha, hb, -, hbc⟩ := balanced_red.mp hnear
      obtain ⟨m₁, hm₁, hfirst⟩ := eraseFirstRotation h
      obtain ⟨m', hm', hstands⟩ := eraseLastRotation hfirst rfl
      rw [blackened_branch] at hstands
      refine ⟨m', _, w, _, ?_, hstands, balanced_black.mpr ⟨ht, ha⟩, balanced_black.mpr ⟨hb, hfar⟩, color_branch,
        color_branch, ?_⟩
      · have hinner : (m.node s).child side = some w := by rw [hs, child_cell, root_branch]
        have hother : (m₁.node p).child side.other = some w := by rw [hfirst.above.1, child_other_cell, root_branch]
        simp only [eraseRedNephew, if_pos (htest.mpr hfc), hinner, RBTree.blacken, hm₁, hother, Option.pure_def,
          Option.bind_eq_bind, Option.bind_some]
        exact hm'
      · cases side <;> simp [branch, inorder]

theorem blacken_root {t : ColoredTree Nat} (h : Represents m t) (hcolor : t.color = .black) :
    Represents (RBTree.blacken m.root m) t := by
  have hroot : m.root = t.root := h.above
  have hblack := Stands.blacken h
  rw [blackened_of_black hcolor] at hblack
  rw [hroot]
  exact hblack

theorem rbEraseColor_round {m₁ : Memory} {f : Frame Nat} {r : Nat} (h : Stands m (f :: path) t) (hcolor : t.color = .black)
    (hs : f.sibling.root = some s) (hsibling : eraseRedSibling f.side f.entry s m = some (r, m₁)) (fuel : Nat) :
    rbEraseColor (fuel + 1) t.root (some f.entry) m =
      if m₁.isBlack (m₁.node r).left = true ∧ m₁.isBlack (m₁.node r).right = true then
        rbEraseColor fuel (some f.entry) (m₁.node f.entry).parent (m₁.setColor r .red)
      else (eraseRedNephew f.side f.entry r m₁).map fun m => RBTree.blacken m.root m := by
  have hside : m.sideOf f.entry t.root = f.side := h.sideOf (.inr fun hleaf => by rw [hleaf] at hs; cases hs)
  have hchild : (m.node f.entry).child f.side.other = some s := by rw [h.above.1, child_other_cell, hs]
  rw [rbEraseColor, if_pos ⟨h.below.isBlack.mpr hcolor, h.root_ne⟩]
  simp only [Option.bind_eq_bind, Option.bind_some, hside, hchild, hsibling, Option.map_eq_bind]
  rfl

theorem nephews_black {r : Nat} (h : Held m (some p) (branch side c near r far)) :
    m.isBlack (m.node r).left = true ∧ m.isBlack (m.node r).right = true ↔ near.color = .black ∧ far.color = .black := by
  obtain ⟨hr, hnear, hfar⟩ := held_branch.mp h
  rw [hr, ← hnear.isBlack, ← hfar.isBlack]
  cases side with
  | left => exact Iff.rfl
  | right => exact and_comm

/-- `__rb_erase_color` makes a red-black tree of a tree that is one but for a subtree that is one black node short. -/
theorem rbEraseColor_spec {fuel : Nat} (h : Stands m path t) (hbalanced : t.Balanced n) (hpath : Fits path (n + 1))
    (hfuel : path.length < fuel) :
    ∃ m' t', rbEraseColor fuel t.root (top path) m = some m' ∧ Represents m' t' ∧ t'.inorder = (fill path t).inorder
      ∧ IsRedBlack t' := by
  induction fuel generalizing m path t n with
  | zero => omega
  | succ fuel ih =>
      cases hcolor : t.color with
      | red =>
          obtain ⟨m', hm', hstands, hredblack⟩ :=
            rbEraseColor_of_red h hcolor (hbalanced.blackened hcolor) hpath fuel
          exact ⟨m', _, hm', hstands, inorder_fill_congr path inorder_blackened, hredblack⟩
      | black =>
          cases path with
          | nil =>
              obtain ⟨m', hm', hstands, hredblack⟩ := rbEraseColor_of_root h hbalanced fuel
              exact ⟨m', _, hm', hstands, inorder_blackened, hredblack⟩
          | cons f path =>
              obtain ⟨side, c, p, sibling⟩ := f
              obtain ⟨s, hs⟩ := exists_root hpath.balanced_sibling.ne_leaf
              obtain ⟨m₁, r, c', sibling', path', hm₁, hr, hrc, h₁, hpath₁, horder, hup⟩ :=
                eraseRedSibling_spec h hpath hs
              obtain ⟨near, z, far, rfl, hnear, hfar⟩ :=
                hpath₁.balanced_sibling.exists_black_branch side hrc
              obtain rfl := Option.some.inj (root_branch.symm.trans hr)
              rw [show top (⟨side, c, p, sibling⟩ :: path) = some p from rfl,
                rbEraseColor_round h hcolor hs hm₁ fuel]
              by_cases hnephews : near.color = .black ∧ far.color = .black
              · -- the sibling becomes red, and the tree above is short
                rw [if_pos ((nephews_black h₁.above.2.1).mpr hnephews)]
                have hparent : (m₁.node p).parent = top path' := by rw [h₁.above.1, parent_cell]
                have hred : Stands (m₁.setColor z .red) path' (branch side c' t p (branch side .red near z far)) :=
                  stands_cons.mp (stands_sibling.mpr ((stands_sibling.mp h₁).setColor .red))
                have hsame : (fill path' (branch side c' t p (branch side .red near z far))).inorder
                    = (fill path' (branch side c' t p (branch side .black near z far))).inorder := by
                  apply inorder_fill_congr
                  cases side <;> simp [branch, inorder]
                have hnephew : (branch side .red near z far).Balanced n :=
                  balanced_red.mpr ⟨hnear, hfar, hnephews.1, hnephews.2⟩
                rw [hparent]
                cases hpath₁ with
                | red _ _ _ _ hpath₂ =>
                    obtain ⟨fuel, rfl⟩ : ∃ k, fuel = k + 1 := ⟨fuel - 1, by simp at hfuel; omega⟩
                    have hblackened : (branch side .red t p (branch side .red near z far)).blackened.Balanced (n + 1) := by
                      rw [blackened_branch]
                      exact balanced_black.mpr ⟨hbalanced, hnephew⟩
                    obtain ⟨m', hm', hstands, hredblack⟩ :=
                      rbEraseColor_of_red hred color_branch hblackened hpath₂ fuel
                    rw [root_branch] at hm'
                    refine ⟨m', _, hm', hstands, ?_, hredblack⟩
                    exact (inorder_fill_congr path' inorder_blackened).trans (hsame.trans horder)
                | black _ _ _ hpath₂ =>
                    obtain rfl : path' = path := hup.resolve_left (by decide)
                    obtain ⟨m', t', hm', hstands, horder', hredblack⟩ :=
                      ih hred (balanced_black.mpr ⟨hbalanced, hnephew⟩) hpath₂ (by simp at hfuel; omega)
                    rw [root_branch] at hm'
                    exact ⟨m', t', hm', hstands, horder'.trans (hsame.trans horder), hredblack⟩
              · -- a red nephew makes the missing black up
                rw [if_neg fun hblack => hnephews ((nephews_black h₁.above.2.1).mp hblack)]
                have hrednephew : near.color = .red ∨ far.color = .red := by
                  cases hn : near.color with
                  | red => exact .inl rfl
                  | black =>
                      cases hf : far.color with
                      | red => exact .inr rfl
                      | black => exact absurd ⟨hn, hf⟩ hnephews
                obtain ⟨m₂, l, y, q, hm₂, h₂, hl, hq, hlc, hqc, hsame⟩ :=
                  eraseRedNephew_spec h₁ hrednephew hbalanced hnear hfar
                have hredblack : IsRedBlack (fill path' (branch side c' l y q)) :=
                  hpath₁.isRedBlack_branch hl hq hlc hqc
                rw [hm₂, Option.map_some]
                refine ⟨_, _, rfl, blacken_root (represents_fill.mpr h₂) hredblack.1, ?_, hredblack⟩
                exact (inorder_fill_congr path' hsame).trans horder

/-- The loop that goes to one side finds the last node there. -/
theorem extreme_spec {q : Path Nat} {z : Nat} {fuel : Nat} (h : Held m parent (fill q (branch side c .leaf x far)))
    (hside : ∀ f ∈ q, f.side = side) (hroot : (fill q (branch side c .leaf x far)).root = some z)
    (hfuel : q.length < fuel) : extreme side fuel z m = some x := by
  induction q using List.reverseRecOn generalizing parent z fuel with
  | nil =>
      obtain ⟨fuel, rfl⟩ : ∃ k, fuel = k + 1 := ⟨fuel - 1, by simp at hfuel; omega⟩
      obtain rfl := Option.some.inj (root_branch.symm.trans hroot)
      have hchild : (m.node x).child side = none := by
        rw [(held_branch.mp h).1, child_cell]
        rfl
      simp only [extreme, hchild]
  | append_singleton q f ih =>
      obtain ⟨fuel, rfl⟩ : ∃ k, fuel = k + 1 := ⟨fuel - 1, by simp at hfuel; omega⟩
      obtain ⟨side', d, y, sibling⟩ := f
      obtain rfl : side' = side := hside _ (List.mem_append_right _ List.mem_cons_self)
      rw [fill_append] at h hroot
      obtain rfl := Option.some.inj (root_branch.symm.trans hroot)
      obtain ⟨hy, hnear, -⟩ := held_branch.mp h
      obtain ⟨w, hw⟩ := exists_root (fill_ne_leaf q (t := branch side' c .leaf x far) (by cases side' <;> nofun))
      have hchild : (m.node y).child side' = some w := by rw [hy, child_cell, hw]
      simp only [extreme, hchild]
      apply ih hnear _ hw
      · simp at hfuel
        omega
      · exact fun g hg => hside g (List.mem_append_left _ hg)

theorem finish_spec {fuel : Nat} (h : Stands m path t) (hbalanced : (branch side c .leaf x t).Balanced n)
    (hpath : Fits path n) (hfuel : path.length < fuel) :
    ∃ m' t', (if c = .black then rbEraseColor fuel t.root (top path) m else some m) = some m' ∧ Represents m' t'
      ∧ t'.inorder = (fill path t).inorder ∧ IsRedBlack t' := by
  cases c with
  | red =>
      obtain ⟨-, ht, -, hcolor⟩ := balanced_red.mp hbalanced
      exact ⟨m, _, rfl, represents_fill.mpr h, rfl, isRedBlack_fill hpath ht fun _ => hcolor⟩
  | black =>
      cases n with
      | zero => exact absurd hbalanced not_balanced_black_zero
      | succ n => exact rbEraseColor_spec h (balanced_black.mp hbalanced).2 hpath hfuel

theorem rbErase_of_free {fuel : Nat} (h : Stands m path (branch side c .leaf x t))
    (hredblack : IsRedBlack (fill path (branch side c .leaf x t))) (hfuel : path.length < fuel) :
    ∃ m' t', rbErase fuel x m = some m' ∧ Represents m' t' ∧ t'.inorder = (fill path t).inorder ∧ IsRedBlack t' := by
  obtain ⟨hx, -⟩ := held_branch.mp h.below
  obtain ⟨n, hpath, hbalanced, -⟩ := fits_of_isRedBlack hredblack
  obtain ⟨m', t', hm', hstands⟩ := finish_spec h.unlink hbalanced hpath hfuel
  refine ⟨m', t', ?_, hstands⟩
  rw [← hm']
  cases side with
  | left => simp only [rbErase, hx, cell, root_leaf]
  | right =>
      cases hroot : t.root with
      | none => simp only [rbErase, hx, cell, root_leaf, hroot]
      | some z => simp only [rbErase, hx, cell, root_leaf, hroot]

/-- The next node of a node with two children takes its place. -/
theorem rbErase_of_both {l r : ColoredTree Nat} {fuel : Nat} (h : Stands m path (branch .left c l x r)) (hl : l ≠ .leaf)
    (hr : r ≠ .leaf) (hredblack : IsRedBlack (fill path (branch .left c l x r)))
    (hfuel : (fill path (branch .left c l x r)).inorder.length < fuel) :
    ∃ m' t', rbErase fuel x m = some m' ∧ Represents m' t'
      ∧ t'.inorder = before path ++ (l.inorder ++ r.inorder) ++ after path ∧ IsRedBlack t' := by
  obtain ⟨q, c', y, far, rfl, hside⟩ := exists_extreme .left hr
  obtain ⟨z, hz⟩ := exists_root hr
  obtain ⟨w, hw⟩ := exists_root hl
  obtain ⟨hx, hlHeld, hrHeld⟩ := held_branch.mp h.below
  rw [hz, hw] at hx
  -- the next node is the last one to the left in the right subtree
  have hwhole : fill path (branch .left c l x (fill q (branch .left c' .leaf y far)))
      = fill (q ++ ⟨.right, c, x, l⟩ :: path) (branch .left c' .leaf y far) := by
    rw [fill_append]
    rfl
  have hlength : q.length + 1 + path.length ≤ (entries (q ++ ⟨.right, c, x, l⟩ :: path)).length := by
    have := length_le_entries (q ++ ⟨.right, c, x, l⟩ :: path)
    simp only [List.length_append, List.length_cons] at this
    omega
  rw [hwhole, length_fill] at hfuel
  have hextreme : extreme .left fuel z m = some y := extreme_spec hrHeld hside hz (by omega)
  have hy : Stands m (q ++ ⟨.right, c, x, l⟩ :: path) (branch .left c' .leaf y far) := by
    rw [← represents_fill, ← hwhole, represents_fill]
    exact h
  obtain ⟨hynode, -⟩ := held_branch.mp hy.below
  obtain ⟨-, hynodup, hydisjoint⟩ := nodup_fill.mp hy.nodup
  have hyq : y ∉ entries (q ++ ⟨.right, c, x, l⟩ :: path) := hydisjoint y (mem_branch.mpr (.inl rfl))
  have hyfar : y ∉ far.inorder := (nodup_branch.mp hynodup).2.1
  -- it is taken out
  obtain ⟨m₁, hm₁⟩ : ∃ m₁, m₁ = RBTree.unlink y far.root m := ⟨_, rfl⟩
  have hout : Stands m₁ path (branch .left c l x (fill q far)) := by
    have hunlinked := represents_fill.mpr hy.unlink
    rw [← hm₁, fill_append] at hunlinked
    exact represents_fill.mp hunlinked
  have hynot : y ∉ (fill path (branch .left c l x (fill q far))).inorder := by
    have hsame : fill path (branch .left c l x (fill q far)) = fill (q ++ ⟨.right, c, x, l⟩ :: path) far := by
      rw [fill_append]
      rfl
    rw [hsame, mem_fill]
    exact not_or.mpr ⟨hyfar, hyq⟩
  obtain ⟨hx₁, -⟩ := held_branch.mp hout.below
  -- it goes to the place of the node
  obtain ⟨m₂, hm₂⟩ : ∃ m₂, m₂ = (m₁.set y (m₁.node x)).relink (top path) (some x) (some y) := ⟨_, rfl⟩
  have hin := hout.substitute hynot
  rw [← hm₂] at hin
  have hview : Stands ((m₂.adopt l.root (some y)).adopt (fill q far).root (some y))
      (q ++ ⟨.right, c, y, l⟩ :: path) far := by
    rw [← represents_fill, fill_append]
    exact represents_fill.mpr (stands_cons.mpr hin)
  have hnex : x ≠ y := by
    rintro rfl
    exact hynot (mem_fill.mpr (.inl (mem_branch.mpr (.inl rfl))))
  have htop : (if top (q ++ ⟨.right, c, x, l⟩ :: path) = some x then some y
      else top (q ++ ⟨.right, c, x, l⟩ :: path)) = top (q ++ ⟨.right, c, y, l⟩ :: path) := by
    cases q with
    | nil => exact if_pos rfl
    | cons f q =>
        refine if_neg fun heq => ?_
        obtain ⟨hentries, -⟩ := nodup_fill.mp hy.nodup
        obtain ⟨hf, -⟩ := List.nodup_cons.mp hentries
        have hmem : x ∈ entries (q ++ ⟨.right, c, x, l⟩ :: path) :=
          entry_mem_entries (f := ⟨.right, c, x, l⟩) (List.mem_append_right _ List.mem_cons_self)
        obtain rfl : f.entry = x := Option.some.inj heq
        exact hf (List.mem_append_right _ hmem)
  have hx₂ : m₂.node x = m₁.node x := by
    have hxpath : x ∉ entries path := (nodup_fill.mp h.nodup).2.2 x (mem_branch.mpr (.inl rfl))
    rw [hm₂, node_relink_of_notMem _ _ _ hxpath, node_set_of_ne _ _ hnex]
  have hcompute : rbErase fuel x m = if c' = .black then
      rbEraseColor fuel far.root (top (q ++ ⟨.right, c, y, l⟩ :: path))
        ((m₂.adopt l.root (some y)).adopt (fill q far).root (some y))
      else some ((m₂.adopt l.root (some y)).adopt (fill q far).root (some y)) := by
    have hparent : ((m₁.set y (m₁.node x)).node x).parent = top path := by
      rw [node_set_of_ne _ _ hnex, hx₁, parent_cell]
    have hleft : (m₂.node x).left = some w := by rw [hx₂, hx₁, hw]; rfl
    have hright : (m₂.node x).right = (fill q far).root := by rw [hx₂, hx₁]; rfl
    simp only [rbErase, hx, cell, hextreme, Option.bind_eq_bind, Option.bind_some, hynode, ← hm₁, hparent, ← hm₂, hleft,
      hright, htop, hw]
    rfl
  -- the hole is where it was
  rw [hwhole] at hredblack
  obtain ⟨n, hfits, hbalanced, -⟩ := fits_of_isRedBlack hredblack
  have hlen : (q ++ ⟨.right, c, y, l⟩ :: path).length < fuel := by
    rw [List.length_append, List.length_cons]
    omega
  obtain ⟨m', t', hm', hstands, horder, hredblack'⟩ := finish_spec hview hbalanced (hfits.replace y) hlen
  refine ⟨m', t', hcompute.trans hm', hstands, ?_, hredblack'⟩
  have hplace : (branch .right c (fill q far) y l).inorder
      = l.inorder ++ (fill q (branch .left c' .leaf y far)).inorder := by
    simp [branch, inorder, inorder_fill q, before_eq_nil hside]
  calc t'.inorder = (fill path (branch .right c (fill q far) y l)).inorder := by rw [horder, fill_append]; rfl
    _ = _ := by rw [inorder_fill, hplace]

/-- `rb_erase` takes the node out of the tree. -/
theorem rbErase_spec {t : ColoredTree Nat} {fuel : Nat} (h : Represents m t) (hredblack : IsRedBlack t) (hx : x ∈ t.inorder)
    (hfuel : t.inorder.length < fuel) :
    ∃ m' t', rbErase fuel x m = some m' ∧ Represents m' t' ∧ t'.inorder = t.inorder.erase x ∧ IsRedBlack t' := by
  obtain ⟨path, c, l, r, rfl⟩ := exists_fill hx
  have hview : Stands m path (.node c l x r) := represents_fill.mp h
  have hpath : path.length < fuel := by
    have := length_le_entries path
    rw [length_fill] at hfuel
    omega
  rw [erase_inorder_fill h.nodup]
  by_cases hl : l = .leaf
  · subst hl
    have hfree : Stands m path (branch .left c .leaf x r) := hview
    obtain ⟨m', t', hm', hstands, horder, hredblack'⟩ := rbErase_of_free hfree hredblack hpath
    exact ⟨m', t', hm', hstands, horder.trans (inorder_fill path r), hredblack'⟩
  · by_cases hr : r = .leaf
    · subst hr
      have hfree : Stands m path (branch .right c .leaf x l) := hview
      obtain ⟨m', t', hm', hstands, horder, hredblack'⟩ := rbErase_of_free hfree hredblack hpath
      refine ⟨m', t', hm', hstands, ?_, hredblack'⟩
      rw [horder, inorder_fill path, inorder, List.append_nil]
    · exact rbErase_of_both hview hl hr hredblack hfuel

end WorkflowModel.Kernel.RBTree
