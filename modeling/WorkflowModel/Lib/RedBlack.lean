import Mathlib.Data.List.Nodup

/-!
# Red-black trees

A binary tree with coloured nodes, and the path from a place in it up to the root. The two sides of a node are
told apart by a parameter, so that what is said of one side is said of the other. The colours are balanced
when no red node has a red child and every way down from a node passes the same number of black nodes. A path
has a hole in which trees of one black height fit.
-/

namespace RedBlack

inductive Color where
  | red
  | black
  deriving DecidableEq, Repr

inductive Side where
  | left
  | right
  deriving DecidableEq, Repr

def Side.other : Side → Side
  | left => right
  | right => left

@[simp]
theorem Side.other_other (side : Side) : side.other.other = side := by cases side <;> rfl

@[simp]
theorem Side.other_ne (side : Side) : side.other ≠ side := by cases side <;> nofun

@[simp]
theorem Side.ne_other (side : Side) : side ≠ side.other := by cases side <;> nofun

inductive ColoredTree (α : Type) where
  | leaf
  | node (color : Color) (left : ColoredTree α) (entry : α) (right : ColoredTree α)

variable {α : Type}

namespace ColoredTree

/-- The entries from left to right. -/
def inorder : ColoredTree α → List α
  | leaf => []
  | node _ left entry right => left.inorder ++ entry :: right.inorder

/-- A leaf is black. -/
def color : ColoredTree α → Color
  | leaf => .black
  | node color _ _ _ => color

/-- The entries in the order of a walk to one side. -/
def walk (side : Side) (t : ColoredTree α) : List α :=
  match side with
  | .left => t.inorder.reverse
  | .right => t.inorder

def root : ColoredTree α → Option α
  | leaf => none
  | node _ _ entry _ => some entry

/-- A node with the subtree on one side and the one on the other. -/
def branch (side : Side) (color : Color) (near : ColoredTree α) (entry : α) (far : ColoredTree α) : ColoredTree α :=
  match side with
  | .left => node color near entry far
  | .right => node color far entry near

/-- The same tree with a black root. -/
def blackened : ColoredTree α → ColoredTree α
  | leaf => leaf
  | node _ left entry right => node .black left entry right

/-- The colours are balanced, with this number of black nodes on every way down. -/
inductive Balanced : ColoredTree α → Nat → Prop
  | leaf : Balanced leaf 0
  | red {left right : ColoredTree α} {n : Nat} (entry : α) (hleft : Balanced left n) (hright : Balanced right n)
      (hl : left.color = .black) (hr : right.color = .black) : Balanced (node .red left entry right) n
  | black {left right : ColoredTree α} {n : Nat} (entry : α) (hleft : Balanced left n) (hright : Balanced right n) :
      Balanced (node .black left entry right) (n + 1)

end ColoredTree

open ColoredTree

/-- A balanced tree whose root is black. -/
def IsRedBlack (t : ColoredTree α) : Prop := t.color = .black ∧ ∃ n, t.Balanced n

/-- A step of a path: the node above the hole, with the side on which the hole is, and the subtree on the other
side. -/
structure Frame (α : Type) where
  side : Side
  color : Color
  entry : α
  sibling : ColoredTree α

/-- The way from a hole up to the root. -/
abbrev Path (α : Type) := List (Frame α)

def Frame.fill (f : Frame α) (t : ColoredTree α) : ColoredTree α := branch f.side f.color t f.entry f.sibling

namespace Path

def fill : Path α → ColoredTree α → ColoredTree α
  | [], t => t
  | f :: path, t => fill path (f.fill t)

/-- The node above the hole. -/
def top : Path α → Option α
  | [] => none
  | f :: _ => some f.entry

/-- Above the root there is red, in so far as it is no red root that fits there. -/
def color : Path α → Color
  | [] => .red
  | f :: _ => f.color

def entries : Path α → List α
  | [] => []
  | f :: path => f.entry :: (f.sibling.inorder ++ entries path)

/-- What is left of the hole, and what is right of it. -/
def before : Path α → List α
  | [] => []
  | ⟨.left, _, _, _⟩ :: path => before path
  | ⟨.right, _, entry, sibling⟩ :: path => before path ++ sibling.inorder ++ [entry]

def after : Path α → List α
  | [] => []
  | ⟨.left, _, entry, sibling⟩ :: path => entry :: (sibling.inorder ++ after path)
  | ⟨.right, _, _, _⟩ :: path => after path

/-- What a walk to one side finds beyond the hole. -/
def beyond (side : Side) (path : Path α) : List α :=
  match side with
  | .left => (before path).reverse
  | .right => after path

/-- The free place that a search ends at, if it finds no entry that it looks for. -/
def place (compare : α → Ordering) : Path α → ColoredTree α → Option (Path α)
  | path, .leaf => some path
  | path, .node c left entry right =>
      match compare entry with
      | .lt => place compare (⟨.left, c, entry, right⟩ :: path) left
      | .gt => place compare (⟨.right, c, entry, left⟩ :: path) right
      | .eq => none

/-- A balanced tree of this black height fits into the hole, a red one only where the color above is black. -/
inductive Fits : Path α → Nat → Prop
  | nil (n : Nat) : Fits [] n
  | red {sibling : ColoredTree α} {path : Path α} {n : Nat} (side : Side) (entry : α) (hsibling : sibling.Balanced n)
      (hs : sibling.color = .black) (hpath : Fits path n) (hp : color path = .black) :
      Fits (⟨side, .red, entry, sibling⟩ :: path) n
  | black {sibling : ColoredTree α} {path : Path α} {n : Nat} (side : Side) (entry : α) (hsibling : sibling.Balanced n)
      (hpath : Fits path (n + 1)) : Fits (⟨side, .black, entry, sibling⟩ :: path) n

end Path

namespace ColoredTree

variable {side : Side} {c : Color} {near far t : ColoredTree α} {x y : α} {n : Nat}

@[simp]
theorem color_branch : (branch side c near x far).color = c := by cases side <;> rfl

@[simp]
theorem root_leaf : (leaf : ColoredTree α).root = none := rfl

@[simp]
theorem root_branch : (branch side c near x far).root = some x := by cases side <;> rfl

theorem root_eq_none : t.root = none ↔ t = leaf := by
  cases t with
  | leaf => exact iff_of_true rfl rfl
  | node => exact iff_of_false nofun nofun

theorem exists_root (h : t ≠ leaf) : ∃ x, t.root = some x := by
  cases t with
  | leaf => exact absurd rfl h
  | node c left x right => exact ⟨x, rfl⟩

theorem branch_other : branch side.other c near x far = branch side c far x near := by cases side <;> rfl

theorem exists_branch (side : Side) (h : t ≠ leaf) : ∃ c near x far, t = branch side c near x far := by
  cases t with
  | leaf => exact absurd rfl h
  | node c left x right =>
      cases side with
      | left => exact ⟨c, left, x, right, rfl⟩
      | right => exact ⟨c, right, x, left, rfl⟩

theorem exists_red_branch (side : Side) (h : t.color = .red) : ∃ near x far, t = branch side .red near x far := by
  obtain ⟨c, near, x, far, rfl⟩ := exists_branch side (t := t) (by rintro rfl; cases h)
  rw [color_branch] at h
  exact ⟨near, x, far, by rw [h]⟩

@[simp]
theorem blackened_branch : (branch side c near x far).blackened = branch side .black near x far := by
  cases side <;> rfl

@[simp]
theorem color_blackened : t.blackened.color = .black := by cases t <;> rfl

@[simp]
theorem inorder_blackened : t.blackened.inorder = t.inorder := by cases t <;> rfl

theorem blackened_of_black (h : t.color = .black) : t.blackened = t := by
  cases t with
  | leaf => rfl
  | node c left x right =>
      obtain rfl : c = .black := h
      rfl

theorem walk_branch : (branch side c near x far).walk side = far.walk side ++ x :: near.walk side := by
  cases side <;> simp [walk, branch, inorder]

theorem walk_branch_other : (branch side.other c near x far).walk side = near.walk side ++ x :: far.walk side := by
  rw [branch_other, walk_branch]

theorem nodup_walk : (t.walk side).Nodup ↔ t.inorder.Nodup := by
  cases side with
  | left => exact List.nodup_reverse
  | right => exact Iff.rfl

theorem mem_walk : x ∈ t.walk side ↔ x ∈ t.inorder := by
  cases side with
  | left => exact List.mem_reverse
  | right => exact Iff.rfl

theorem mem_branch : y ∈ (branch side c near x far).inorder ↔ y = x ∨ y ∈ near.inorder ∨ y ∈ far.inorder := by
  cases side <;> simp only [branch, inorder, List.mem_append, List.mem_cons] <;> tauto

theorem inorder_branch_color (c' : Color) :
    (branch side c' near x far).inorder = (branch side c near x far).inorder := by cases side <;> rfl

theorem inorder_rotate (side : Side) (c c' d d' : Color) (a b e : ColoredTree α) (x y : α) :
    (branch side d' (branch side d a x b) y e).inorder = (branch side c a x (branch side c' b y e)).inorder := by
  cases side <;> simp [branch, inorder]

theorem nodup_branch : (branch side c near x far).inorder.Nodup ↔
    x ∉ near.inorder ∧ x ∉ far.inorder ∧ near.inorder.Nodup ∧ far.inorder.Nodup
      ∧ ∀ y ∈ near.inorder, y ∉ far.inorder := by
  cases side <;>
    simp only [branch, inorder, List.nodup_append', List.nodup_cons, List.Disjoint] <;>
    grind

theorem balanced_red : (branch side .red near x far).Balanced n ↔
    near.Balanced n ∧ far.Balanced n ∧ near.color = .black ∧ far.color = .black := by
  constructor
  · intro h
    cases side with
    | left => cases h with | red _ hl hr hcl hcr => exact ⟨hl, hr, hcl, hcr⟩
    | right => cases h with | red _ hl hr hcl hcr => exact ⟨hr, hl, hcr, hcl⟩
  · rintro ⟨hnear, hfar, hcn, hcf⟩
    cases side with
    | left => exact .red x hnear hfar hcn hcf
    | right => exact .red x hfar hnear hcf hcn

theorem balanced_black : (branch side .black near x far).Balanced (n + 1) ↔
    near.Balanced n ∧ far.Balanced n := by
  constructor
  · intro h
    cases side with
    | left => cases h with | black _ hl hr => exact ⟨hl, hr⟩
    | right => cases h with | black _ hl hr => exact ⟨hr, hl⟩
  · rintro ⟨hnear, hfar⟩
    cases side with
    | left => exact .black x hnear hfar
    | right => exact .black x hfar hnear

theorem not_balanced_black_zero : ¬(branch side .black near x far).Balanced 0 := by
  cases side <;> nofun

theorem Balanced.ne_leaf (h : t.Balanced (n + 1)) : t ≠ ColoredTree.leaf := by
  rintro rfl
  cases h

theorem Balanced.exists_black_branch (h : t.Balanced (n + 1)) (side : Side) (hcolor : t.color = .black) :
    ∃ near x far, t = branch side .black near x far ∧ near.Balanced n ∧ far.Balanced n := by
  obtain ⟨c, near, x, far, rfl⟩ := exists_branch side h.ne_leaf
  rw [color_branch] at hcolor
  subst hcolor
  obtain ⟨hnear, hfar⟩ := balanced_black.mp h
  exact ⟨near, x, far, rfl, hnear, hfar⟩

theorem Balanced.blackened (h : t.Balanced n) (hcolor : t.color = .red) : t.blackened.Balanced (n + 1) := by
  obtain ⟨near, x, far, rfl⟩ := exists_red_branch .left hcolor
  obtain ⟨hnear, hfar, -⟩ := balanced_red.mp h
  rw [blackened_branch]
  exact balanced_black.mpr ⟨hnear, hfar⟩

end ColoredTree

namespace Path

variable {path : Path α} {t : ColoredTree α} {f : Frame α} {x y : α} {n : Nat}

theorem inorder_fill (path : Path α) (t : ColoredTree α) :
    (fill path t).inorder = before path ++ t.inorder ++ after path := by
  induction path generalizing t with
  | nil => simp [fill, before, after]
  | cons f path ih =>
      obtain ⟨side, c, x, sibling⟩ := f
      rw [fill, ih]
      cases side <;> simp [Frame.fill, branch, inorder, before, after]

theorem inorder_fill_congr {t' : ColoredTree α} (path : Path α) (h : t.inorder = t'.inorder) :
    (fill path t).inorder = (fill path t').inorder := by
  rw [inorder_fill, inorder_fill, h]

theorem walk_fill (side : Side) (path : Path α) (t : ColoredTree α) : (fill path t).walk side
    = (beyond side.other path).reverse ++ t.walk side ++ beyond side path := by
  cases side <;> simp [walk, beyond, inorder_fill, Side.other]

theorem beyond_cons (side : Side) (c : Color) (x : α) (sibling : ColoredTree α) (path : Path α) :
    beyond side (⟨side, c, x, sibling⟩ :: path) = beyond side path := by
  cases side <;> rfl

theorem beyond_cons_other (side : Side) (c : Color) (x : α) (sibling : ColoredTree α) (path : Path α) :
    beyond side (⟨side.other, c, x, sibling⟩ :: path) = x :: (sibling.walk side ++ beyond side path) := by
  cases side <;> simp [beyond, before, after, walk, Side.other]

theorem head_walk_fill {side : Side} (hside : ∀ f ∈ path, f.side = side.other) (ht : (t.walk side).head? = some x) :
    ((fill path t).walk side).head? = some x := by
  induction path generalizing t with
  | nil => exact ht
  | cons f path ih =>
      obtain ⟨side', c, y, sibling⟩ := f
      obtain rfl : side' = side.other := hside _ List.mem_cons_self
      refine ih (fun g hg => hside g (List.mem_cons_of_mem _ hg)) ?_
      rw [Frame.fill, walk_branch_other, List.head?_append, ht]
      rfl

theorem mem_entries : y ∈ entries path ↔ y ∈ before path ∨ y ∈ after path := by
  induction path with
  | nil => simp [entries, before, after]
  | cons f path ih =>
      obtain ⟨side, c, x, sibling⟩ := f
      cases side <;> simp only [entries, before, after, List.mem_cons, List.mem_append, ih] <;> grind

theorem entry_mem_entries (h : f ∈ path) : f.entry ∈ entries path := by
  induction path with
  | nil => cases h
  | cons g path ih =>
      rcases List.mem_cons.mp h with rfl | h
      · exact List.mem_cons_self
      · exact List.mem_cons_of_mem _ (List.mem_append_right _ (ih h))

theorem mem_fill : y ∈ (fill path t).inorder ↔ y ∈ t.inorder ∨ y ∈ entries path := by
  rw [inorder_fill, mem_entries, List.mem_append, List.mem_append]
  tauto

theorem nodup_fill : (fill path t).inorder.Nodup ↔
    (entries path).Nodup ∧ t.inorder.Nodup ∧ ∀ y ∈ t.inorder, y ∉ entries path := by
  induction path generalizing t with
  | nil => simp [fill, entries]
  | cons f path ih =>
      rw [fill, ih, Frame.fill, nodup_branch, entries, List.nodup_cons, List.nodup_append']
      simp only [mem_branch, List.mem_cons, List.mem_append, List.Disjoint]
      grind

theorem erase_inorder_fill [DecidableEq α] {c : Color} {left right : ColoredTree α}
    (h : (fill path (node c left x right)).inorder.Nodup) : (fill path (node c left x right)).inorder.erase x
      = before path ++ (left.inorder ++ right.inorder) ++ after path := by
  have hsplit : (fill path (node c left x right)).inorder
      = (before path ++ left.inorder) ++ x :: (right.inorder ++ after path) := by
    simp [inorder_fill, inorder]
  rw [hsplit] at h ⊢
  have hx : x ∉ before path ++ left.inorder := fun hmem =>
    (List.nodup_append'.mp h).2.2 hmem List.mem_cons_self
  rw [List.erase_append_right _ hx, List.erase_cons_head]
  simp

theorem length_fill (path : Path α) (t : ColoredTree α) :
    (fill path t).inorder.length = (entries path).length + t.inorder.length := by
  induction path generalizing t with
  | nil => simp [fill, entries]
  | cons f path ih =>
      obtain ⟨side, c, x, sibling⟩ := f
      rw [fill, ih]
      cases side <;> simp [Frame.fill, branch, inorder, entries] <;> omega

theorem length_le_entries (path : Path α) : path.length ≤ (entries path).length := by
  induction path with
  | nil => exact Nat.le_refl 0
  | cons f path ih =>
      simp only [entries, List.length_cons, List.length_append]
      omega

theorem fill_append (path rest : Path α) (t : ColoredTree α) : fill (path ++ rest) t = fill rest (fill path t) := by
  induction path generalizing t with
  | nil => rfl
  | cons f path ih => exact ih (f.fill t)

theorem fill_ne_leaf (path : Path α) (h : t ≠ leaf) : fill path t ≠ leaf := by
  induction path generalizing t with
  | nil => exact h
  | cons f path ih =>
      obtain ⟨side, c, x, sibling⟩ := f
      apply ih
      cases side <;> nofun

theorem before_eq_nil (h : ∀ f ∈ path, f.side = .left) : before path = [] := by
  induction path with
  | nil => rfl
  | cons f path ih =>
      obtain ⟨side, c, x, sibling⟩ := f
      obtain rfl : side = .left := h _ List.mem_cons_self
      exact ih fun g hg => h g (List.mem_cons_of_mem _ hg)

theorem fill_place {compare : α → Ordering} {free : Path α} (h : place compare path t = some free) :
    fill free leaf = fill path t := by
  induction t generalizing path with
  | leaf =>
      obtain rfl := Option.some.inj h
      rfl
  | node c left y right ihl ihr =>
      rw [place] at h
      cases hcompare : compare y with
      | lt =>
          rw [hcompare] at h
          exact ihl h
      | gt =>
          rw [hcompare] at h
          exact ihr h
      | eq =>
          rw [hcompare] at h
          cases h

/-- The entries that a search goes past come in the order of the tree: behind one that comes after the
searched one, all do, and before one that comes before it, all do. -/
def Ordered (compare : α → Ordering) (l : List α) : Prop :=
  l.Pairwise fun x y => (compare x = .lt → compare y = .lt) ∧ (compare y = .gt → compare x = .gt)

/-- A search ends between the entries that come before the searched one and those that come after it. -/
theorem place_sides {compare : α → Ordering} {free : Path α} (h : place compare path t = some free)
    (hordered : Ordered compare t.inorder) (hbefore : ∀ y ∈ before path, compare y = .gt)
    (hafter : ∀ y ∈ after path, compare y = .lt) :
    (∀ y ∈ before free, compare y = .gt) ∧ ∀ y ∈ after free, compare y = .lt := by
  induction t generalizing path with
  | leaf =>
      obtain rfl := Option.some.inj h
      exact ⟨hbefore, hafter⟩
  | node c left y right ihl ihr =>
      obtain ⟨hleft, hright, hcross⟩ := List.pairwise_append.mp hordered
      obtain ⟨hentry, hright⟩ := List.pairwise_cons.mp hright
      rw [place] at h
      cases hcompare : compare y with
      | lt =>
          rw [hcompare] at h
          apply ihl h hleft hbefore
          intro z hz
          simp only [after, List.mem_cons, List.mem_append] at hz
          obtain rfl | hz | hz := hz
          · exact hcompare
          · exact (hentry z hz).1 hcompare
          · exact hafter z hz
      | gt =>
          rw [hcompare] at h
          apply ihr h hright _ hafter
          intro z hz
          simp only [before, List.mem_append, List.mem_singleton] at hz
          obtain (hz | hz) | rfl := hz
          · exact hbefore z hz
          · exact (hcross z hz y List.mem_cons_self).2 hcompare
          · exact hcompare
      | eq =>
          rw [hcompare] at h
          cases h

theorem exists_fill (h : x ∈ t.inorder) : ∃ path c left right, t = fill path (node c left x right) := by
  induction t with
  | leaf => cases h
  | node c left entry right ihl ihr =>
      rcases List.mem_append.mp h with hleft | hright
      · obtain ⟨path, c', l, r, rfl⟩ := ihl hleft
        exact ⟨path ++ [⟨.left, c, entry, right⟩], c', l, r, by rw [fill_append]; rfl⟩
      · rcases List.mem_cons.mp hright with rfl | hright
        · exact ⟨[], c, left, right, rfl⟩
        · obtain ⟨path, c', l, r, rfl⟩ := ihr hright
          exact ⟨path ++ [⟨.right, c, entry, left⟩], c', l, r, by rw [fill_append]; rfl⟩

theorem exists_fill_branch (side : Side) (h : x ∈ t.inorder) :
    ∃ path c near far, t = fill path (branch side c near x far) := by
  obtain ⟨path, c, left, right, rfl⟩ := exists_fill h
  cases side with
  | left => exact ⟨path, c, left, right, rfl⟩
  | right => exact ⟨path, c, right, left, rfl⟩

/-- The last node on one side is at the end of a path that goes to this side only. -/
theorem exists_extreme (side : Side) (h : t ≠ leaf) :
    ∃ path c x far, t = fill path (branch side c leaf x far) ∧ ∀ f ∈ path, f.side = side := by
  have hstep : ∀ (c : Color) (near : ColoredTree α) (x : α) (far : ColoredTree α),
      (near ≠ leaf → ∃ path c' y far', near = fill path (branch side c' leaf y far') ∧ ∀ f ∈ path, f.side = side) →
      ∃ path c' y far', branch side c near x far = fill path (branch side c' leaf y far')
        ∧ ∀ f ∈ path, f.side = side := by
    intro c near x far ih
    by_cases hleaf : near = leaf
    · exact ⟨[], c, x, far, by rw [hleaf]; rfl, nofun⟩
    · obtain ⟨path, c', y, far', rfl, hside⟩ := ih hleaf
      refine ⟨path ++ [⟨side, c, x, far⟩], c', y, far', by rw [fill_append]; rfl, ?_⟩
      intro f hf
      rcases List.mem_append.mp hf with hf | hf
      · exact hside f hf
      · rw [List.mem_singleton.mp hf]
  induction t with
  | leaf => exact absurd rfl h
  | node c left entry right ihl ihr =>
      cases side with
      | left => exact hstep c left entry right ihl
      | right => exact hstep c right entry left ihr

theorem isRedBlack_fill (hpath : Fits path n) (ht : t.Balanced n)
    (hcolor : color path = .red → t.color = .black) : IsRedBlack (fill path t) := by
  induction hpath generalizing t with
  | nil n => exact ⟨hcolor rfl, n, ht⟩
  | red side x hsibling hs hpath hp ih =>
      apply ih (balanced_red.mpr ⟨ht, hsibling, hcolor rfl, hs⟩)
      intro hred
      rw [hp] at hred
      cases hred
  | black side x hsibling hpath ih =>
      apply ih (balanced_black.mpr ⟨ht, hsibling⟩)
      intro _
      exact color_branch

theorem Fits.replace {side : Side} {c : Color} {sibling : ColoredTree α} {q : Path α}
    (h : Fits (q ++ ⟨side, c, x, sibling⟩ :: path) n) (y : α) : Fits (q ++ ⟨side, c, y, sibling⟩ :: path) n := by
  have hcolor : ∀ q : Path α, color (q ++ ⟨side, c, y, sibling⟩ :: path) = color (q ++ ⟨side, c, x, sibling⟩ :: path) := by
    intro q
    cases q <;> rfl
  induction q generalizing n with
  | nil =>
      cases h with
      | red _ _ hsibling hs hpath hp => exact .red side y hsibling hs hpath hp
      | black _ _ hsibling hpath => exact .black side y hsibling hpath
  | cons f q ih =>
      cases h with
      | red side' z hsibling hs hpath hp => exact .red side' z hsibling hs (ih hpath) ((hcolor q).trans hp)
      | black side' z hsibling hpath => exact .black side' z hsibling (ih hpath)

theorem Fits.balanced_sibling (h : Fits (f :: path) n) : f.sibling.Balanced n := by
  cases h with
  | red _ _ hsibling => exact hsibling
  | black _ _ hsibling => exact hsibling

theorem Fits.isRedBlack_branch {side : Side} {l r : ColoredTree α} (h : Fits (f :: path) n) (hl : l.Balanced n)
    (hr : r.Balanced n) (hlc : l.color = .black) (hrc : r.color = .black) :
    IsRedBlack (fill path (branch side f.color l y r)) := by
  cases h with
  | red _ _ _ _ hpath hp =>
      apply isRedBlack_fill hpath (balanced_red.mpr ⟨hl, hr, hlc, hrc⟩)
      intro hred
      rw [hp] at hred
      cases hred
  | black _ _ _ hpath => exact isRedBlack_fill hpath (balanced_black.mpr ⟨hl, hr⟩) fun _ => color_branch

/-- A hole in a red-black tree fits the tree that was there. -/
theorem fits_of_isRedBlack (h : IsRedBlack (fill path t)) :
    ∃ n, Fits path n ∧ t.Balanced n ∧ (color path = .red → t.color = .black) := by
  induction path generalizing t with
  | nil =>
      obtain ⟨hcolor, n, ht⟩ := h
      exact ⟨n, .nil n, ht, fun _ => hcolor⟩
  | cons f path ih =>
      obtain ⟨side, c, x, sibling⟩ := f
      obtain ⟨n, hpath, hbranch, hcolor⟩ := ih h
      cases c with
      | red =>
          obtain ⟨ht, hsibling, hc, hs⟩ := balanced_red.mp hbranch
          have hp : color path = .black := by
            cases hp : color path with
            | black => rfl
            | red => exact absurd (hcolor hp) (by simp [Frame.fill])
          exact ⟨n, .red side x hsibling hs hpath hp, ht, fun _ => hc⟩
      | black =>
          cases n with
          | zero => exact absurd hbranch not_balanced_black_zero
          | succ n =>
              obtain ⟨ht, hsibling⟩ := balanced_black.mp hbranch
              exact ⟨n, .black side x hsibling hpath, ht, nofun⟩

end Path

end RedBlack
