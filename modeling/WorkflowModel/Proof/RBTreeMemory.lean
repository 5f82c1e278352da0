import WorkflowModel.Kernel.RBTree

/-!
# Trees in memory

The nodes of a memory hold a tree when each has the pointers and the colour that its place asks for. A tree is
looked at from one place: what is below it is a subtree, and what is above it is a path. Each change of
pointers is described from the place where it happens, and the view can be moved up and down.
-/

namespace WorkflowModel.Kernel.RBTree

open RedBlack RedBlack.ColoredTree RedBlack.Path

def cell (side : Side) (parent : Option Nat) (color : Color) (near far : Option Nat) : RbNode :=
  match side with
  | .left => { parent := parent, right := far, left := near, color := color }
  | .right => { parent := parent, right := near, left := far, color := color }

section Cell

variable {side : Side} {parent parent' near far child : Option Nat} {color color' : Color}

@[simp]
theorem parent_cell : (cell side parent color near far).parent = parent := by cases side <;> rfl

@[simp]
theorem color_cell : (cell side parent color near far).color = color := by cases side <;> rfl

@[simp]
theorem child_cell : (cell side parent color near far).child side = near := by cases side <;> rfl

@[simp]
theorem child_other_cell : (cell side parent color near far).child side.other = far := by cases side <;> rfl

theorem cell_other : cell side.other parent color near far = cell side parent color far near := by
  cases side <;> rfl

@[simp]
theorem cell_setParent :
    { cell side parent color near far with parent := parent' } = cell side parent' color near far := by
  cases side <;> rfl

@[simp]
theorem cell_setColor :
    { cell side parent color near far with color := color' } = cell side parent color' near far := by
  cases side <;> rfl

@[simp]
theorem withChild_cell :
    (cell side parent color near far).withChild side child = cell side parent color child far := by
  cases side <;> rfl

@[simp]
theorem withChild_other_cell :
    (cell side parent color near far).withChild side.other child = cell side parent color near child := by
  cases side <;> rfl

end Cell

def Held (m : Memory) : Option Nat → ColoredTree Nat → Prop
  | _, .leaf => True
  | parent, .node c left x right =>
      m.node x = { parent := parent, right := right.root, left := left.root, color := c }
        ∧ Held m (some x) left ∧ Held m (some x) right

/-- The nodes hold a path, with this pointer to what is in its hole. -/
def HeldPath (m : Memory) : Option Nat → Path Nat → Prop
  | hole, [] => m.root = hole
  | hole, f :: path =>
      m.node f.entry = cell f.side (top path) f.color hole f.sibling.root ∧ Held m (some f.entry) f.sibling
        ∧ HeldPath m (some f.entry) path

/-- The memory holds a tree, seen from a place in it. -/
structure Stands (m : Memory) (path : Path Nat) (t : ColoredTree Nat) : Prop where
  above : HeldPath m t.root path
  below : Held m (top path) t
  nodup : (fill path t).inorder.Nodup

def Represents (m : Memory) (t : ColoredTree Nat) : Prop := Stands m [] t

variable {m m' : Memory} {parent hole : Option Nat} {path : Path Nat} {t a b e : ColoredTree Nat} {side : Side}
  {c d : Color} {x y : Nat}

theorem held_branch : Held m parent (branch side c a x b) ↔
    m.node x = cell side parent c a.root b.root ∧ Held m (some x) a ∧ Held m (some x) b := by
  cases side with
  | left => exact Iff.rfl
  | right =>
      simp only [branch, Held, cell]
      tauto

theorem Held.parent_root (h : Held m parent t) (hroot : t.root = some x) : (m.node x).parent = parent := by
  cases t with
  | leaf => cases hroot
  | node c left z right =>
      obtain rfl := Option.some.inj hroot
      rw [h.1]

theorem Held.color_root (h : Held m parent t) (hroot : t.root = some x) : (m.node x).color = t.color := by
  cases t with
  | leaf => cases hroot
  | node c left z right =>
      obtain rfl := Option.some.inj hroot
      rw [h.1]
      rfl

theorem Held.congr (h : Held m parent t) (hsame : ∀ y ∈ t.inorder, m'.node y = m.node y) : Held m' parent t := by
  induction t generalizing parent with
  | leaf => trivial
  | node c left x right ihl ihr =>
      obtain ⟨hx, hleft, hright⟩ := h
      refine ⟨?_, ihl hleft ?_, ihr hright ?_⟩
      · rw [hsame x (by simp [inorder]), hx]
      · exact fun y hy => hsame y (List.mem_append_left _ hy)
      · exact fun y hy => hsame y (List.mem_append_right _ (List.mem_cons_of_mem _ hy))

theorem HeldPath.congr (h : HeldPath m hole path) (hsame : ∀ y ∈ entries path, m'.node y = m.node y)
    (hroot : m'.root = m.root) : HeldPath m' hole path := by
  induction path generalizing hole with
  | nil => exact hroot.trans h
  | cons f path ih =>
      obtain ⟨hx, hsibling, hpath⟩ := h
      refine ⟨?_, hsibling.congr ?_, ih hpath ?_⟩
      · rw [hsame f.entry List.mem_cons_self, hx]
      · exact fun y hy => hsame y (List.mem_cons_of_mem _ (List.mem_append_left _ hy))
      · exact fun y hy => hsame y (List.mem_cons_of_mem _ (List.mem_append_right _ hy))

theorem stands_cons {f : Frame Nat} : Stands m (f :: path) t ↔ Stands m path (f.fill t) := by
  constructor
  · rintro ⟨⟨hx, hsibling, hpath⟩, ht, hnodup⟩
    refine ⟨?_, held_branch.mpr ⟨hx, ht, hsibling⟩, hnodup⟩
    rw [Frame.fill, root_branch]
    exact hpath
  · rintro ⟨hpath, hbranch, hnodup⟩
    obtain ⟨hx, ht, hsibling⟩ := held_branch.mp hbranch
    rw [Frame.fill, root_branch] at hpath
    exact ⟨⟨hx, hsibling, hpath⟩, ht, hnodup⟩

theorem represents_fill : Represents m (fill path t) ↔ Stands m path t := by
  induction path generalizing t with
  | nil => exact Iff.rfl
  | cons f path ih => exact ih.trans stands_cons.symm

theorem stands_sibling : Stands m (⟨side, c, x, b⟩ :: path) a ↔ Stands m (⟨side.other, c, x, a⟩ :: path) b := by
  rw [stands_cons, stands_cons, Frame.fill, Frame.fill, branch_other]

theorem root_mem_inorder (h : t.root = some x) : x ∈ t.inorder := by
  cases t with
  | leaf => cases h
  | node c left z right =>
      obtain rfl := Option.some.inj h
      simp [inorder]

theorem Stands.sibling_ne {f : Frame Nat} (h : Stands m (f :: path) t) (hroot : t.root = some x) :
    f.sibling.root ≠ some x := by
  intro heq
  obtain ⟨-, hnodup, -⟩ := nodup_fill.mp (stands_cons.mp h).nodup
  obtain ⟨-, -, -, -, hdisjoint⟩ := nodup_branch.mp hnodup
  exact hdisjoint x (root_mem_inorder hroot) (root_mem_inorder heq)

@[simp]
theorem node_set_self (m : Memory) (x : Nat) (node : RbNode) : (m.set x node).node x = node :=
  Function.update_self ..

theorem node_set_of_ne (m : Memory) (node : RbNode) (h : y ≠ x) : (m.set x node).node y = m.node y :=
  Function.update_of_ne h ..

@[simp]
theorem root_set (m : Memory) (x : Nat) (node : RbNode) : (m.set x node).root = m.root := rfl

theorem set_set (m : Memory) (x : Nat) (node node' : RbNode) : (m.set x node).set x node' = m.set x node' := by
  simp only [Memory.set, Function.update_idem]

theorem setParent_set (m : Memory) (x : Nat) (node : RbNode) (parent : Option Nat) :
    (m.set x node).setParent x parent = m.set x { node with parent := parent } := by
  rw [Memory.setParent, set_set, node_set_self]

theorem setParent_cell (h : m.node x = cell side parent c hole a.root) (parent' : Option Nat) :
    m.setParent x parent' = m.set x (cell side parent' c hole a.root) := by
  rw [Memory.setParent, h, cell_setParent]

@[simp]
theorem root_adopt (m : Memory) (child parent : Option Nat) : (m.adopt child parent).root = m.root := by
  cases child <;> rfl

theorem node_adopt_of_ne (m : Memory) {child : Option Nat} (parent : Option Nat) (h : child ≠ some y) :
    (m.adopt child parent).node y = m.node y := by
  cases child with
  | none => rfl
  | some x => exact node_set_of_ne m _ fun heq => h (congrArg some heq.symm)

theorem node_adopt_of_notMem (m : Memory) (parent : Option Nat) (h : y ∉ t.inorder) :
    (m.adopt t.root parent).node y = m.node y :=
  node_adopt_of_ne m parent fun heq => h (root_mem_inorder heq)

theorem Held.adopt (h : Held m parent t) (hnodup : t.inorder.Nodup) (parent' : Option Nat) :
    Held (m.adopt t.root parent') parent' t := by
  cases t with
  | leaf => trivial
  | node c left x right =>
      obtain ⟨hx, hleft, hright⟩ := h
      obtain ⟨hl, hr, -⟩ := nodup_branch.mp (show (branch .left c left x right).inorder.Nodup from hnodup)
      refine ⟨?_, hleft.congr ?_, hright.congr ?_⟩
      · show (m.set x { m.node x with parent := parent' }).node x = _
        rw [node_set_self, hx]
      · exact fun y hy => node_set_of_ne m _ fun heq => hl (heq ▸ hy)
      · exact fun y hy => node_set_of_ne m _ fun heq => hr (heq ▸ hy)

theorem node_relink_of_notMem (m : Memory) (old new : Option Nat) (h : y ∉ entries path) :
    (m.relink (top path) old new).node y = m.node y := by
  cases path with
  | nil => rfl
  | cons f path =>
      have hne : y ≠ f.entry := fun heq => h (heq ▸ List.mem_cons_self)
      simp only [Memory.relink, top]
      split_ifs
      · exact node_set_of_ne m _ hne
      · exact node_set_of_ne m _ hne

/-- What is in the hole is replaced. The test of the left child finds the right side, since the sibling is another
node. -/
theorem HeldPath.relink (h : HeldPath m (some x) path) (hnodup : (entries path).Nodup) (hx : x ∉ entries path)
    (new : Option Nat) : HeldPath (m.relink (top path) (some x) new) new path := by
  cases path with
  | nil => rfl
  | cons f path =>
      obtain ⟨side, c, z, sibling⟩ := f
      obtain ⟨hz, hsibling, hpath⟩ := h
      obtain ⟨hznot, hrest⟩ := List.nodup_cons.mp hnodup
      have hrelink : m.relink (some z) (some x) new = m.setChild z side new := by
        dsimp only at hz
        cases side with
        | left => exact if_pos (by rw [hz]; rfl)
        | right =>
            refine if_neg ?_
            rw [hz]
            exact fun heq => hx (List.mem_cons_of_mem _ (List.mem_append_left _ (root_mem_inorder heq)))
      have hother : ∀ y ∈ sibling.inorder ++ entries path, (m.setChild z side new).node y = m.node y :=
        fun y hy => node_set_of_ne m _ fun heq => hznot (heq ▸ hy)
      simp only [top, hrelink]
      refine ⟨?_, hsibling.congr ?_, hpath.congr ?_ rfl⟩
      · show (m.set z ((m.node z).withChild side new)).node z = _
        rw [node_set_self, hz]
        exact withChild_cell
      · exact fun y hy => hother y (List.mem_append_left _ hy)
      · exact fun y hy => hother y (List.mem_append_right _ hy)

theorem Stands.setColor (h : Stands m path (branch side c a x b)) (d : Color) :
    Stands (m.setColor x d) path (branch side d a x b) := by
  obtain ⟨hpath, hbranch, hnodup⟩ := h
  obtain ⟨hx, ha, hb⟩ := held_branch.mp hbranch
  obtain ⟨-, hnodup', hdisjoint⟩ := nodup_fill.mp hnodup
  obtain ⟨hxa, hxb, -⟩ := nodup_branch.mp hnodup'
  rw [root_branch] at hpath
  refine ⟨?_, held_branch.mpr ⟨?_, ha.congr ?_, hb.congr ?_⟩, ?_⟩
  · rw [root_branch]
    refine hpath.congr (fun y hy => node_set_of_ne m _ ?_) rfl
    rintro rfl
    exact hdisjoint y (mem_branch.mpr (.inl rfl)) hy
  · show (m.set x { m.node x with color := d }).node x = _
    rw [node_set_self, hx, cell_setColor]
  · exact fun y hy => node_set_of_ne m _ fun heq => hxa (heq ▸ hy)
  · exact fun y hy => node_set_of_ne m _ fun heq => hxb (heq ▸ hy)
  · have hsame : (branch side d a x b).inorder = (branch side c a x b).inorder := inorder_branch_color d
    rw [inorder_fill] at hnodup ⊢
    rw [hsame]
    exact hnodup

/-- What a rotation writes: the node with its new child, the new parent of this child, the node that goes up, the
pointer to it, and the new parent of the node. -/
theorem rotate_eq {parent near inner far : Option Nat} (hx : m.node x = cell side parent c near (some y))
    (hy : m.node y = cell side (some x) d inner far) (hne : x ≠ y) (hxi : inner ≠ some x) (hyi : inner ≠ some y) :
    rotate side x m = some ((((((m.set x (cell side parent c near inner)).adopt inner (some x)).set y
      (cell side parent d (some x) far)).relink parent (some x) (some y))).setParent x (some y)) := by
  have hother : (m.node x).child side.other = some y := by rw [hx, child_other_cell]
  have hinner : (m.node y).child side = inner := by rw [hy, child_cell]
  obtain ⟨m₁, hm₁⟩ : ∃ m₁, m₁ = (m.set x (cell side parent c near inner)).adopt inner (some x) := ⟨_, rfl⟩
  have hx₁ : m₁.node x = cell side parent c near inner := by
    rw [hm₁, node_adopt_of_ne _ _ hxi, node_set_self]
  have hy₁ : m₁.node y = cell side (some x) d inner far := by
    rw [hm₁, node_adopt_of_ne _ _ hyi, node_set_of_ne _ _ hne.symm, hy]
  have hset : m.setChild x side.other inner = m.set x (cell side parent c near inner) := by
    rw [Memory.setChild, hx, withChild_other_cell]
  have hchild : m₁.setChild y side (some x) = m₁.set y (cell side (some x) d (some x) far) := by
    rw [Memory.setChild, hy₁, withChild_cell]
  have hx₂ : ∀ node, (m₁.set y node).node x = cell side parent c near inner :=
    fun node => (node_set_of_ne _ _ hne).trans hx₁
  simp only [rotate, hother, Option.bind_eq_bind, Option.bind_some, hinner, hset, ← hm₁, hchild, hx₂, parent_cell,
    setParent_set, cell_setParent]
  rfl

/-- A rotation at the view. -/
theorem Stands.rotate (h : Stands m path (branch side c a x (branch side d b y e))) :
    ∃ m', rotate side x m = some m' ∧ Stands m' path (branch side d (branch side c a x b) y e) := by
  obtain ⟨hpath, hbranch, hnodup⟩ := h
  obtain ⟨hx, ha, hinner⟩ := held_branch.mp hbranch
  obtain ⟨hy, hb, he⟩ := held_branch.mp hinner
  rw [root_branch] at hpath hx
  -- the nodes are different ones
  obtain ⟨hentries, hnodup', hdisjoint⟩ := nodup_fill.mp hnodup
  obtain ⟨hxa, hxbye, -, hbye, hdisjointa⟩ := nodup_branch.mp hnodup'
  obtain ⟨hyb, hye, hbnodup, -, hdisjointb⟩ := nodup_branch.mp hbye
  simp only [mem_branch, not_or] at hxbye hdisjointa hdisjoint
  obtain ⟨hxy, hxb, hxe⟩ := hxbye
  have hxpath : x ∉ entries path := hdisjoint x (.inl rfl)
  have hypath : y ∉ entries path := hdisjoint y (.inr (.inr (.inl rfl)))
  rw [rotate_eq hx hy hxy (fun heq => hxb (root_mem_inorder heq)) (fun heq => hyb (root_mem_inorder heq))]
  refine ⟨_, rfl, ?_⟩
  -- before the pointer to `x` is changed
  obtain ⟨m₁, hm₁⟩ : ∃ m₁, m₁ = m.set x (cell side (top path) c a.root b.root) := ⟨_, rfl⟩
  obtain ⟨m₂, hm₂⟩ : ∃ m₂, m₂ = (m₁.adopt b.root (some x)).set y (cell side (top path) d (some x) e.root) := ⟨_, rfl⟩
  rw [← hm₁, ← hm₂]
  have hb₁ : Held m₁ (some y) b := hb.congr fun z hz => by
    rw [hm₁]
    exact node_set_of_ne m _ fun heq => hxb (heq ▸ hz)
  have hframe : ∀ z, z ≠ x → z ≠ y → z ∉ b.inorder → m₂.node z = m.node z := by
    intro z hzx hzy hzb
    rw [hm₂, node_set_of_ne _ _ hzy, node_adopt_of_notMem _ _ hzb, hm₁, node_set_of_ne _ _ hzx]
  have hx₂ : m₂.node x = cell side (top path) c a.root b.root := by
    rw [hm₂, node_set_of_ne _ _ hxy, node_adopt_of_notMem _ _ hxb, hm₁, node_set_self]
  have hy₂ : m₂.node y = cell side (top path) d (some x) e.root := by rw [hm₂, node_set_self]
  have hb₂ : Held m₂ (some x) b := (hb₁.adopt hbnodup (some x)).congr fun z hz => by
    rw [hm₂]
    exact node_set_of_ne _ _ fun heq => hyb (heq ▸ hz)
  have hpath₂ : HeldPath m₂ (some x) path := by
    apply hpath.congr
    · intro z hz
      apply hframe
      · exact fun heq => hxpath (heq ▸ hz)
      · exact fun heq => hypath (heq ▸ hz)
      · exact fun hzb => hdisjoint z (.inr (.inr (.inr (.inl hzb)))) hz
    · rw [hm₂, root_set, root_adopt, hm₁, root_set]
  -- after it
  obtain ⟨m₃, hm₃⟩ : ∃ m₃, m₃ = m₂.relink (top path) (some x) (some y) := ⟨_, rfl⟩
  have hkept : ∀ z, z ∉ entries path → m₃.node z = m₂.node z := fun z hz => by
    rw [hm₃]
    exact node_relink_of_notMem m₂ _ _ hz
  have hpath₃ : HeldPath m₃ (some y) path := by
    rw [hm₃]
    exact hpath₂.relink hentries hxpath (some y)
  rw [← hm₃, setParent_cell ((hkept x hxpath).trans hx₂)]
  have hlast : ∀ z, z ≠ x → (m₃.set x (cell side (some y) c a.root b.root)).node z = m₃.node z :=
    fun z hz => node_set_of_ne m₃ _ hz
  refine ⟨?_, held_branch.mpr ⟨?_, held_branch.mpr ⟨?_, ?_, ?_⟩, ?_⟩, ?_⟩
  · rw [root_branch]
    exact hpath₃.congr (fun z hz => hlast z fun heq => hxpath (heq ▸ hz)) rfl
  · rw [root_branch, hlast y (Ne.symm hxy), hkept y hypath, hy₂]
  · exact node_set_self ..
  · apply ha.congr
    intro z hz
    obtain ⟨hzy, hzb, -⟩ := hdisjointa z hz
    have hzx : z ≠ x := fun heq => hxa (heq ▸ hz)
    rw [hlast z hzx, hkept z (hdisjoint z (.inr (.inl hz))), hframe z hzx hzy hzb]
  · apply hb₂.congr
    intro z hz
    rw [hlast z fun heq => hxb (heq ▸ hz), hkept z (hdisjoint z (.inr (.inr (.inr (.inl hz)))))]
  · apply he.congr
    intro z hz
    have hzx : z ≠ x := fun heq => hxe (heq ▸ hz)
    rw [hlast z hzx, hkept z (hdisjoint z (.inr (.inr (.inr (.inr hz))))),
      hframe z hzx (fun heq => hye (heq ▸ hz)) fun hzb => hdisjointb z hzb hz]
  · rw [inorder_fill] at hnodup ⊢
    rw [inorder_rotate side c d c d]
    exact hnodup

/-- A node with a free side is taken out, and its other subtree takes its place. -/
theorem Stands.unlink (h : Stands m path (branch side c .leaf x t)) : Stands (unlink x t.root m) path t := by
  obtain ⟨hpath, hbranch, hnodup⟩ := h
  obtain ⟨hx, -, ht⟩ := held_branch.mp hbranch
  obtain ⟨hentries, hnodup', hdisjoint⟩ := nodup_fill.mp hnodup
  obtain ⟨-, hxt, -, htnodup, -⟩ := nodup_branch.mp hnodup'
  simp only [mem_branch] at hdisjoint
  have hapart : ∀ z ∈ t.inorder, z ∉ entries path := fun z hz => hdisjoint z (.inr (.inr hz))
  have hparent : (m.node x).parent = top path := by rw [hx, parent_cell]
  rw [root_branch] at hpath
  unfold RBTree.unlink
  rw [hparent]
  refine ⟨?_, (ht.adopt htnodup (top path)).congr ?_, nodup_fill.mpr ⟨hentries, htnodup, hapart⟩⟩
  · apply HeldPath.relink _ hentries (hdisjoint x (.inl rfl))
    exact hpath.congr (fun z hz => node_adopt_of_notMem m _ fun hzt => hapart z hzt hz) (root_adopt ..)
  · exact fun z hz => node_relink_of_notMem _ _ _ (hapart z hz)

/-- Another node takes the place of the node at the view. -/
theorem Stands.substitute (h : Stands m path (branch side c a x b))
    (hy : y ∉ (fill path (branch side c a x b)).inorder) :
    Stands ((((m.set y (m.node x)).relink (top path) (some x) (some y)).adopt a.root (some y)).adopt b.root (some y))
      path (branch side c a y b) := by
  obtain ⟨hpath, hbranch, hnodup⟩ := h
  obtain ⟨hx, ha, hb⟩ := held_branch.mp hbranch
  obtain ⟨hentries, hnodup', hdisjoint⟩ := nodup_fill.mp hnodup
  obtain ⟨hxa, hxb, hanodup, hbnodup, hab⟩ := nodup_branch.mp hnodup'
  simp only [mem_fill, mem_branch, not_or] at hy hdisjoint
  obtain ⟨⟨hyx, hya, hyb⟩, hypath⟩ := hy
  rw [root_branch] at hpath
  obtain ⟨m₁, hm₁⟩ : ∃ m₁, m₁ = (m.set y (m.node x)).relink (top path) (some x) (some y) := ⟨_, rfl⟩
  obtain ⟨m₂, hm₂⟩ : ∃ m₂, m₂ = (m₁.adopt a.root (some y)).adopt b.root (some y) := ⟨_, rfl⟩
  rw [← hm₁, ← hm₂]
  have hkept : ∀ z, z ≠ y → z ∉ entries path → m₁.node z = m.node z := by
    intro z hzy hz
    rw [hm₁, node_relink_of_notMem _ _ _ hz, node_set_of_ne _ _ hzy]
  have hpath₁ : HeldPath m₁ (some y) path := by
    rw [hm₁]
    apply HeldPath.relink _ hentries (hdisjoint x (.inl rfl))
    exact hpath.congr (fun z hz => node_set_of_ne m _ fun heq => hypath (heq ▸ hz)) rfl
  have hframe : ∀ z, z ∉ a.inorder → z ∉ b.inorder → m₂.node z = m₁.node z := by
    intro z hza hzb
    rw [hm₂, node_adopt_of_notMem _ _ hzb, node_adopt_of_notMem _ _ hza]
  have hbelow : Held m₂ (top path) (branch side c a y b) := by
    refine held_branch.mpr ⟨?_, ?_, ?_⟩
    · rw [hframe y hya hyb, hm₁, node_relink_of_notMem _ _ _ hypath, node_set_self, hx]
    · have ha₁ : Held m₁ (some x) a := ha.congr fun z hz =>
        hkept z (fun heq => hya (heq ▸ hz)) (hdisjoint z (.inr (.inl hz)))
      rw [hm₂]
      exact (ha₁.adopt hanodup (some y)).congr fun z hz => node_adopt_of_notMem _ _ (hab z hz)
    · have hb₁ : Held m₁ (some x) b := hb.congr fun z hz =>
        hkept z (fun heq => hyb (heq ▸ hz)) (hdisjoint z (.inr (.inr hz)))
      have hb₂ : Held (m₁.adopt a.root (some y)) (some x) b := hb₁.congr fun z hz =>
        node_adopt_of_notMem _ _ fun hza => hab z hza hz
      rw [hm₂]
      exact hb₂.adopt hbnodup (some y)
  refine ⟨?_, hbelow, nodup_fill.mpr ⟨hentries, nodup_branch.mpr ⟨hya, hyb, hanodup, hbnodup, hab⟩, ?_⟩⟩
  · rw [root_branch]
    apply hpath₁.congr
    · exact fun z hz => hframe z (fun hza => hdisjoint z (.inr (.inl hza)) hz)
        fun hzb => hdisjoint z (.inr (.inr hzb)) hz
    · rw [hm₂, root_adopt, root_adopt]
  · intro z hz
    rcases mem_branch.mp hz with rfl | hz
    · exact hypath
    · exact hdisjoint z (.inr hz)

def linkOf : Path Nat → Link
  | [] => .root
  | f :: _ => .child f.entry f.side

theorem Stands.deref_linkOf (h : Stands m path t) : m.deref (linkOf path) = t.root := by
  cases path with
  | nil => exact h.above
  | cons f path =>
      show (m.node f.entry).child f.side = t.root
      rw [h.above.1, child_cell]

theorem node_store_of_notMem (m : Memory) (h : y ∉ entries path) : (m.store (linkOf path) x).node y = m.node y := by
  cases path with
  | nil => rfl
  | cons f path => exact node_set_of_ne m _ fun heq => h (heq ▸ List.mem_cons_self)

theorem HeldPath.store (h : HeldPath m hole path) (hnodup : (entries path).Nodup) :
    HeldPath (m.store (linkOf path) x) (some x) path := by
  cases path with
  | nil => rfl
  | cons f path =>
      obtain ⟨side, c, z, sibling⟩ := f
      obtain ⟨hz, hsibling, hpath⟩ := h
      obtain ⟨hznot, -⟩ := List.nodup_cons.mp hnodup
      have hother : ∀ y ∈ sibling.inorder ++ entries path, (m.setChild z side (some x)).node y = m.node y :=
        fun y hy => node_set_of_ne m _ fun heq => hznot (heq ▸ hy)
      refine ⟨?_, hsibling.congr ?_, hpath.congr ?_ rfl⟩
      · show (m.set z ((m.node z).withChild side (some x))).node z = _
        rw [node_set_self, hz]
        exact withChild_cell
      · exact fun y hy => hother y (List.mem_append_left _ hy)
      · exact fun y hy => hother y (List.mem_append_right _ hy)

theorem Stands.link (h : Stands m path .leaf) (hx : x ∉ (fill path .leaf).inorder) :
    Stands (rbLinkNode x (top path) (linkOf path) m) path (.node .red .leaf x .leaf) := by
  obtain ⟨hpath, -, hnodup⟩ := h
  obtain ⟨hentries, -⟩ := nodup_fill.mp hnodup
  have hxpath : x ∉ entries path := fun hmem => hx (mem_fill.mpr (.inr hmem))
  unfold rbLinkNode
  refine ⟨?_, ⟨?_, trivial, trivial⟩, nodup_fill.mpr ⟨hentries, List.nodup_singleton x, ?_⟩⟩
  · refine HeldPath.store (hpath.congr (fun z hz => ?_) rfl) hentries
    have hne : z ≠ x := fun heq => hxpath (heq ▸ hz)
    exact node_set_of_ne m _ hne
  · rw [node_store_of_notMem _ hxpath, node_set_self]
    rfl
  · intro z hz
    rw [List.mem_singleton.mp hz]
    exact hxpath

/-- The test of the left child tells on which side of its parent the view is, unless both children are missing. -/
theorem Stands.sideOf {f : Frame Nat} (h : Stands m (f :: path) t) (hne : t ≠ .leaf ∨ f.sibling ≠ .leaf) :
    m.sideOf f.entry t.root = f.side := by
  obtain ⟨side, c, x, sibling⟩ := f
  have hcell : m.node x = cell side (top path) c t.root sibling.root := h.above.1
  unfold Memory.sideOf
  dsimp only
  rw [hcell]
  cases side with
  | left => exact if_pos rfl
  | right =>
      refine if_neg fun heq => ?_
      replace heq : sibling.root = t.root := heq
      cases hroot : t.root with
      | some z =>
          rw [hroot] at heq
          exact h.sibling_ne hroot heq
      | none =>
          rw [hroot] at heq
          exact hne.elim (fun ht => ht (root_eq_none.mp hroot)) fun hs => hs (root_eq_none.mp heq)

end WorkflowModel.Kernel.RBTree
