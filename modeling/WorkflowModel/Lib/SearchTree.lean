import Mathlib.Data.List.Basic
import Mathlib.Order.Basic
import Mathlib.Order.Lattice

/-!
# Search trees and sorted lists

A sorted sequence is kept in one of two ways: as a list, or as a binary tree that is read from left to
right. A new entry goes down the tree, to the left of the entries that it comes before and to the right of
the others. However the tree has been balanced, this puts it behind all entries that it does not come
before. A predicate that holds of the early entries only cuts a sorted sequence in two.
-/

namespace SearchTree

variable {α : Type}

inductive BinTree (α : Type) where
  | leaf
  | node (left : BinTree α) (entry : α) (right : BinTree α)

namespace BinTree

/-- The entries from left to right. -/
def inorder : BinTree α → List α
  | leaf => []
  | node left entry right => left.inorder ++ entry :: right.inorder

/-- No entry to the left of another comes after it. -/
def Search (le : α → α → Prop) : BinTree α → Prop
  | leaf => True
  | node left entry right =>
      left.Search le ∧ right.Search le ∧ (∀ x ∈ left.inorder, le x entry)
        ∧ ∀ x ∈ right.inorder, le entry x

/-- The tree after `x` has gone down to a free place, to the left where `before` says so. -/
def insertLeaf (before : α → Bool) (x : α) : BinTree α → BinTree α
  | leaf => node leaf x leaf
  | node left entry right =>
      if before entry then node (left.insertLeaf before x) entry right
      else node left entry (right.insertLeaf before x)

/-- The way down never turns to the right. -/
def alwaysLeft (before : α → Bool) : BinTree α → Bool
  | leaf => true
  | node left entry _ => before entry && left.alwaysLeft before

theorem search_of_pairwise {le : α → α → Prop} {t : BinTree α} (h : t.inorder.Pairwise le) :
    t.Search le := by
  induction t with
  | leaf => trivial
  | node left entry right ihl ihr =>
      obtain ⟨hleft, hright, hcross⟩ := List.pairwise_append.1 h
      obtain ⟨hentry, hright⟩ := List.pairwise_cons.1 hright
      exact ⟨ihl hleft, ihr hright, fun x hx => hcross x hx entry (List.mem_cons_self ..), hentry⟩

end BinTree

/-- The entries that `before` holds of come last. -/
def Splits (before : α → Bool) (l : List α) : Prop :=
  l.Pairwise fun x y => before x = true → before y = true

section Split

variable {before : α → Bool} {l : List α}

theorem takeWhile_append_of_splits {l' : List α} {x : α} (hx : before x = true)
    (h : Splits before (l ++ x :: l')) :
    (l ++ x :: l').takeWhile (fun y => !before y) = l.takeWhile (fun y => !before y)
      ∧ (l ++ x :: l').dropWhile (fun y => !before y)
        = l.dropWhile (fun y => !before y) ++ x :: l' := by
  induction l with
  | nil => simp [hx]
  | cons y rest ih =>
      obtain ⟨htake, hdrop⟩ := ih (List.pairwise_cons.1 h).2
      cases hy : before y
      · simp [hy, htake, hdrop]
      · simp [hy]

theorem takeWhile_append_of_not {l' : List α} {x : α} (hx : before x = false)
    (h : Splits before (l ++ x :: l')) :
    (l ++ x :: l').takeWhile (fun y => !before y)
        = l ++ x :: l'.takeWhile (fun y => !before y)
      ∧ (l ++ x :: l').dropWhile (fun y => !before y)
        = l'.dropWhile (fun y => !before y) := by
  induction l with
  | nil => simp [hx]
  | cons y rest ih =>
      obtain ⟨hfirst, hrest⟩ := List.pairwise_cons.1 h
      obtain ⟨htake, hdrop⟩ := ih hrest
      have hy : before y = false := by
        cases hy : before y
        · rfl
        · rw [hfirst x (by simp) hy] at hx
          cases hx
      simp [hy, htake, hdrop]

/-- The entries of which `before` holds are the end of the sequence. -/
theorem filter_of_splits (h : Splits before l) :
    l.takeWhile (fun y => !before y) = l.filter (fun y => !before y)
      ∧ l.dropWhile (fun y => !before y) = l.filter before := by
  induction l with
  | nil => simp
  | cons y rest ih =>
      obtain ⟨hfirst, hrest⟩ := List.pairwise_cons.1 h
      obtain ⟨htake, hdrop⟩ := ih hrest
      cases hy : before y
      · simp [hy, htake, hdrop]
      · have hall : ∀ x ∈ rest, before x = true := fun x hx => hfirst x hx hy
        simp only [List.takeWhile_cons, List.dropWhile_cons, List.filter_cons, hy, Bool.not_true,
          Bool.false_eq_true, if_false, if_true]
        constructor
        · exact (List.filter_eq_nil_iff.2 fun x hx => by simp [hall x hx]).symm
        · rw [List.filter_eq_self.2 hall]

end Split

namespace BinTree

variable {before : α → Bool} {t : BinTree α}

/-- The new entry stands behind all entries that it does not come before. -/
theorem inorder_insertLeaf (x : α) (h : Splits before t.inorder) :
    (t.insertLeaf before x).inorder
      = t.inorder.takeWhile (fun y => !before y) ++ x :: t.inorder.dropWhile (fun y => !before y) := by
  induction t with
  | leaf => rfl
  | node left entry right ihl ihr =>
      obtain ⟨hleft, hright, -⟩ := List.pairwise_append.1 h
      have hright : Splits before right.inorder := (List.pairwise_cons.1 hright).2
      cases hentry : before entry with
      | true =>
          obtain ⟨htake, hdrop⟩ := takeWhile_append_of_splits hentry h
          simp only [insertLeaf, hentry, if_true, inorder, ihl hleft, htake, hdrop]
          simp
      | false =>
          obtain ⟨htake, hdrop⟩ := takeWhile_append_of_not hentry h
          simp only [insertLeaf, hentry, Bool.false_eq_true, if_false, inorder, ihr hright, htake, hdrop]
          simp

/-- The way down never turns right exactly if the new entry becomes the first one. -/
theorem alwaysLeft_iff (h : Splits before t.inorder) :
    t.alwaysLeft before = true ↔ t.inorder.takeWhile (fun y => !before y) = [] := by
  induction t with
  | leaf => simp [alwaysLeft, inorder]
  | node left entry right ihl _ =>
      obtain ⟨hleft, -, -⟩ := List.pairwise_append.1 h
      cases hentry : before entry with
      | true =>
          obtain ⟨htake, -⟩ := takeWhile_append_of_splits hentry h
          simp only [alwaysLeft, hentry, Bool.true_and, inorder, htake]
          exact ihl hleft
      | false =>
          obtain ⟨htake, -⟩ := takeWhile_append_of_not hentry h
          simp [alwaysLeft, hentry, inorder, htake]

/-- A new entry comes between those that it does not come before and those that it comes before. -/
theorem inorder_insertLeaf_of_sides {early late : List α} (hsplit : t.inorder = early ++ late)
    (hearly : ∀ y ∈ early, before y = false) (hlate : ∀ y ∈ late, before y = true) (x : α) :
    (t.insertLeaf before x).inorder = early ++ x :: late := by
  have hsplits : Splits before t.inorder := by
    rw [hsplit]
    refine List.pairwise_append.mpr ⟨?_, ?_, ?_⟩
    · exact List.pairwise_of_forall_mem_list fun y hy z _ htrue => by
        rw [hearly y hy] at htrue
        cases htrue
    · exact List.pairwise_of_forall_mem_list fun _ _ z hz _ => hlate z hz
    · exact fun _ _ z hz _ => hlate z hz
  obtain ⟨htake, hdrop⟩ := filter_of_splits hsplits
  have hleft : (early ++ late).filter (fun y => !before y) = early := by
    rw [List.filter_append, List.filter_eq_self.mpr fun y hy => by rw [hearly y hy]; rfl,
      List.filter_eq_nil_iff.mpr fun y hy => by rw [hlate y hy]; decide, List.append_nil]
  have hright : (early ++ late).filter before = late := by
    rw [List.filter_append, List.filter_eq_nil_iff.mpr fun y hy => by rw [hearly y hy]; decide,
      List.filter_eq_self.mpr hlate, List.nil_append]
  rw [inorder_insertLeaf x hsplits, htake, hdrop, hsplit, hleft, hright]

theorem length_insertLeaf (x : α) : (t.insertLeaf before x).inorder.length = t.inorder.length + 1 := by
  induction t with
  | leaf => rfl
  | node left entry right ihl ihr =>
      rw [insertLeaf]
      split_ifs
      · simp only [inorder, List.length_append, List.length_cons, ihl]
        omega
      · simp only [inorder, List.length_append, List.length_cons, ihr]
        omega

theorem mem_insertLeaf {x y : α} : y ∈ (t.insertLeaf before x).inorder ↔ y = x ∨ y ∈ t.inorder := by
  induction t with
  | leaf => simp [insertLeaf, inorder]
  | node left entry right ihl ihr =>
      rw [insertLeaf]
      split_ifs
      · simp only [inorder, List.mem_append, List.mem_cons, ihl]
        tauto
      · simp only [inorder, List.mem_append, List.mem_cons, ihr]
        tauto

end BinTree

section Keys

variable {κ : Type} [LinearOrder κ]

namespace BinTree

/-- The search for the entry with a key. -/
def findKey (f : α → κ) (k : κ) : BinTree α → Option α
  | leaf => none
  | node left entry right =>
      if k < f entry then left.findKey f k
      else if f entry < k then right.findKey f k
      else some entry

/-- The entries of the tree are in the order of their keys, and no two have the same. -/
def Sorted (f : α → κ) (t : BinTree α) : Prop := t.inorder.Pairwise fun x y => f x < f y

variable {f : α → κ} {k : κ} {t : BinTree α} {x : α}

theorem mem_of_findKey (h : t.findKey f k = some x) : x ∈ t.inorder ∧ f x = k := by
  induction t with
  | leaf => cases h
  | node left entry right ihl ihr =>
      rw [findKey] at h
      simp only [inorder, List.mem_append, List.mem_cons]
      split_ifs at h with hlt hgt
      · obtain ⟨hmem, hkey⟩ := ihl h
        exact ⟨.inl hmem, hkey⟩
      · obtain ⟨hmem, hkey⟩ := ihr h
        exact ⟨.inr (.inr hmem), hkey⟩
      · cases h
        exact ⟨.inr (.inl rfl), le_antisymm (not_lt.mp hlt) (not_lt.mp hgt)⟩

theorem findKey_of_mem (ht : t.Sorted f) (hmem : x ∈ t.inorder) : t.findKey f (f x) = some x := by
  induction t with
  | leaf => exact absurd hmem List.not_mem_nil
  | node left entry right ihl ihr =>
      obtain ⟨hleft, hright, hcross⟩ := List.pairwise_append.1 ht
      obtain ⟨hentry, hright⟩ := List.pairwise_cons.1 hright
      rw [findKey]
      obtain hmem | hmem := List.mem_append.1 hmem
      · rw [if_pos (hcross x hmem entry List.mem_cons_self), ihl hleft hmem]
      · obtain rfl | hmem := List.mem_cons.1 hmem
        · rw [if_neg (lt_irrefl _), if_neg (lt_irrefl _)]
        · have hlt := hentry x hmem
          rw [if_neg (not_lt.2 hlt.le), if_pos hlt, ihr hright hmem]

/-- An entry whose key the search has not found goes to the place where the search has ended. -/
theorem Sorted.insertLeaf (ht : t.Sorted f) (hkey : t.findKey f (f x) = none) :
    (t.insertLeaf (fun y => decide (f x < f y)) x).Sorted f := by
  have hsplits : Splits (fun y => decide (f x < f y)) t.inorder := by
    apply List.Pairwise.imp _ ht
    intro y z hyz hxy
    exact decide_eq_true ((of_decide_eq_true hxy).trans hyz)
  have hne : ∀ y ∈ t.inorder, f y ≠ f x := by
    intro y hy heq
    rw [← heq, findKey_of_mem ht hy] at hkey
    cases hkey
  obtain ⟨htake, hdrop⟩ := filter_of_splits hsplits
  unfold Sorted
  rw [inorder_insertLeaf x hsplits, htake, hdrop, List.pairwise_append, List.pairwise_cons]
  refine ⟨List.Pairwise.filter _ ht, ⟨?_, List.Pairwise.filter _ ht⟩, ?_⟩
  · intro y hy
    exact of_decide_eq_true (List.mem_filter.1 hy).2
  · intro y hy z hz
    obtain ⟨hy, hbefore⟩ := List.mem_filter.1 hy
    have hyx : f y < f x := by
      apply lt_of_le_of_ne _ (hne y hy)
      simpa using hbefore
    obtain rfl | hz := List.mem_cons.1 hz
    · exact hyx
    · exact hyx.trans (of_decide_eq_true (List.mem_filter.1 hz).2)

end BinTree

end Keys

end SearchTree
