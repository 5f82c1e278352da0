import Mathlib.Data.Finset.Image
import Mathlib.Order.Defs.LinearOrder
import Mathlib.Tactic.Common

/-!
# Binary heaps with back pointers

The entries of a heap stand in the slots `0, …, n - 1` of an array, and every entry knows its own slot. The
parent of slot `i` is slot `(i - 1) / 2`. An entry whose key has changed is taken out, which leaves a hole,
and the hole moves: upwards past the entries that come after the one taken out, or downwards past those that
come before it. The last step fills the hole.

Two things are carried along. The slots other than the hole list the other members, each at the slot it
knows. And the keys are in order along every edge that does not touch the hole, and from above the hole to
below it. Whether the pending entry fits under the parent of the hole and over its children is said apart,
because a sift up secures the first and a sift down the second.
-/

namespace BinaryHeap

variable {α : Type} [DecidableEq α]

/-- The array of a heap, and the slot that every entry believes to be its own. -/
structure Slots (α : Type) where
  heap : Nat → α
  index : α → Nat

namespace Slots

/-- The entry `x` goes to slot `i`, and learns it. -/
def put (s : Slots α) (i : Nat) (x : α) : Slots α :=
  { heap := Function.update s.heap i x, index := Function.update s.index x i }

@[simp] theorem put_heap_self (s : Slots α) (i : Nat) (x : α) : (s.put i x).heap i = x := by
  simp [put]

theorem put_heap_of_ne {s : Slots α} {i j : Nat} {x : α} (h : j ≠ i) :
    (s.put i x).heap j = s.heap j := by
  simp [put, h]

@[simp] theorem put_index_self (s : Slots α) (i : Nat) (x : α) : (s.put i x).index x = i := by
  simp [put]

theorem put_index_of_ne {s : Slots α} {i : Nat} {x y : α} (h : y ≠ x) :
    (s.put i x).index y = s.index y := by
  simp [put, h]

end Slots

/-- The slot above slot `i`. -/
def parent (i : Nat) : Nat := (i - 1) / 2

theorem parent_lt {i : Nat} (h : 0 < i) : parent i < i := by
  unfold parent
  omega

theorem eq_child_of_parent_eq {i k : Nat} (hi : 0 < i) (h : parent i = k) :
    i = 2 * k + 1 ∨ i = 2 * k + 2 := by
  unfold parent at h
  omega

/-- The hole at slot `index` moves up while `x` comes before the entry above it; then `x` fills it. The
first argument bounds the number of moves. -/
def siftUpLoop (less : α → α → Bool) (x : α) : Nat → Nat → Slots α → Slots α
  | 0, index, s => s.put index x
  | fuel + 1, index, s =>
      if 0 < index ∧ less x (s.heap (parent index)) = true then
        siftUpLoop less x fuel (parent index) (s.put index (s.heap (parent index)))
      else
        s.put index x

/-- The entry at slot `index` goes up to its place. -/
def siftUp (less : α → α → Bool) (index : Nat) (s : Slots α) : Slots α :=
  siftUpLoop less (s.heap index) index index s

/-- The hole at slot `top` of a heap with `size` slots moves down while the lesser of the entries below it
comes before `x`; then `x` fills it. -/
def siftDownLoop (less : α → α → Bool) (size : Nat) (x : α) : Nat → Nat → Slots α → Slots α
  | 0, top, s => s.put top x
  | fuel + 1, top, s =>
      let i := 2 * top + 1
      let child0 := s.heap i
      let child1 := s.heap (i + 1)
      if i + 1 < size then
        if less child0 x = true then
          if less child1 child0 = true then
            siftDownLoop less size x fuel (i + 1) (s.put top child1)
          else
            siftDownLoop less size x fuel i (s.put top child0)
        else if less child1 x = true then
          siftDownLoop less size x fuel (i + 1) (s.put top child1)
        else
          s.put top x
      else if i + 1 = size ∧ less child0 x = true then
        (s.put top child0).put i x
      else
        s.put top x

/-- The entry at slot `top` goes down to its place. -/
def siftDown (less : α → α → Bool) (size top : Nat) (s : Slots α) : Slots α :=
  siftDownLoop less size (s.heap top) size top s

/-- The first `n` slots hold the members, each once and where it believes itself to be. -/
structure Lists (members : Finset α) (n : Nat) (s : Slots α) : Prop where
  mem : ∀ i, i < n → s.heap i ∈ members
  index_heap : ∀ i, i < n → s.index (s.heap i) = i
  index_lt : ∀ x ∈ members, s.index x < n
  heap_index : ∀ x ∈ members, s.heap (s.index x) = x

/-- The same without the entry `x`, which is in none of the slots, and slot `k`, which holds no entry. -/
structure ListsExcept (members : Finset α) (n k : Nat) (x : α) (s : Slots α) : Prop where
  pending : x ∈ members
  hole_lt : k < n
  mem : ∀ i, i < n → i ≠ k → s.heap i ∈ members ∧ s.heap i ≠ x
  index_heap : ∀ i, i < n → i ≠ k → s.index (s.heap i) = i
  index_lt : ∀ y ∈ members, y ≠ x → s.index y < n ∧ s.index y ≠ k
  heap_index : ∀ y ∈ members, y ≠ x → s.heap (s.index y) = y

section Lists

variable {members : Finset α} {n k j : Nat} {x : α} {s : Slots α}

omit [DecidableEq α] in
theorem Lists.heap_injOn (h : Lists members n s) : ∀ i j, i < n → j < n → s.heap i = s.heap j → i = j := by
  intro i j hi hj heq
  rw [← h.index_heap i hi, heq, h.index_heap j hj]

theorem Lists.image_heap (h : Lists members n s) : (Finset.range n).image s.heap = members := by
  ext x
  simp only [Finset.mem_image, Finset.mem_range]
  constructor
  · rintro ⟨i, hi, rfl⟩
    exact h.mem i hi
  · intro hx
    exact ⟨s.index x, h.index_lt x hx, h.heap_index x hx⟩

omit [DecidableEq α] in
theorem Lists.open (h : Lists members n s) (hk : k < n) : ListsExcept members n k (s.heap k) s := by
  refine ⟨h.mem k hk, hk, ?_, fun i hi _ => h.index_heap i hi, ?_, fun y hy _ => h.heap_index y hy⟩
  · intro i hi hik
    refine ⟨h.mem i hi, ?_⟩
    intro heq
    exact hik (h.heap_injOn i k hi hk heq)
  · intro y hy hyx
    refine ⟨h.index_lt y hy, ?_⟩
    intro heq
    exact hyx (by rw [← heq, h.heap_index y hy])

/-- The hole moves to slot `j`, whose entry fills the old hole. -/
theorem ListsExcept.move (h : ListsExcept members n k x s) (hj : j < n) (hjk : j ≠ k) :
    ListsExcept members n j x (s.put k (s.heap j)) := by
  obtain ⟨hmem, hne⟩ := h.mem j hj hjk
  have hindex : s.index (s.heap j) = j := h.index_heap j hj hjk
  refine ⟨h.pending, hj, ?_, ?_, ?_, ?_⟩
  · intro i hi hij
    by_cases hik : i = k
    · subst hik
      rw [Slots.put_heap_self]
      exact ⟨hmem, hne⟩
    · rw [Slots.put_heap_of_ne hik]
      exact h.mem i hi hik
  · intro i hi hij
    by_cases hik : i = k
    · subst hik
      rw [Slots.put_heap_self, Slots.put_index_self]
    · have hother : s.heap i ≠ s.heap j := by
        intro heq
        exact hij (by rw [← h.index_heap i hi hik, heq, hindex])
      rw [Slots.put_heap_of_ne hik, Slots.put_index_of_ne hother]
      exact h.index_heap i hi hik
  · intro y hy hyx
    by_cases hyj : y = s.heap j
    · subst hyj
      rw [Slots.put_index_self]
      exact ⟨h.hole_lt, hjk.symm⟩
    · rw [Slots.put_index_of_ne hyj]
      refine ⟨(h.index_lt y hy hyx).1, ?_⟩
      intro heq
      exact hyj (by rw [← heq, h.heap_index y hy hyx])
  · intro y hy hyx
    by_cases hyj : y = s.heap j
    · subst hyj
      rw [Slots.put_index_self, Slots.put_heap_self]
    · rw [Slots.put_index_of_ne hyj, Slots.put_heap_of_ne (h.index_lt y hy hyx).2]
      exact h.heap_index y hy hyx

theorem ListsExcept.put_index_of_notMem (h : ListsExcept members n k x s) {y : α} (hy : y ∉ members) :
    (s.put k x).index y = s.index y := by
  apply Slots.put_index_of_ne
  rintro rfl
  exact hy h.pending

/-- The pending entry fills the hole. -/
theorem ListsExcept.close (h : ListsExcept members n k x s) : Lists members n (s.put k x) := by
  refine ⟨?_, ?_, ?_, ?_⟩
  · intro i hi
    by_cases hik : i = k
    · subst hik
      rw [Slots.put_heap_self]
      exact h.pending
    · rw [Slots.put_heap_of_ne hik]
      exact (h.mem i hi hik).1
  · intro i hi
    by_cases hik : i = k
    · subst hik
      rw [Slots.put_heap_self, Slots.put_index_self]
    · rw [Slots.put_heap_of_ne hik, Slots.put_index_of_ne (h.mem i hi hik).2]
      exact h.index_heap i hi hik
  · intro y hy
    by_cases hyx : y = x
    · subst hyx
      rw [Slots.put_index_self]
      exact h.hole_lt
    · rw [Slots.put_index_of_ne hyx]
      exact (h.index_lt y hy hyx).1
  · intro y hy
    by_cases hyx : y = x
    · subst hyx
      rw [Slots.put_index_self, Slots.put_heap_self]
    · rw [Slots.put_index_of_ne hyx, Slots.put_heap_of_ne (h.index_lt y hy hyx).2]
      exact h.heap_index y hy hyx

end Lists

theorem Lists.insert {members : Finset α} {n : Nat} {x : α} {s : Slots α} (h : Lists members n s)
    (hx : x ∉ members) : Lists (Insert.insert x members) (n + 1) (s.put n x) := by
  have hne : ∀ y ∈ members, y ≠ x := fun y hy heq => hx (heq ▸ hy)
  refine ListsExcept.close ⟨Finset.mem_insert_self x members, Nat.lt_succ_self n, ?_, ?_, ?_, ?_⟩
  · intro i hi hin
    have hmem := h.mem i (by omega)
    exact ⟨Finset.mem_insert_of_mem hmem, hne _ hmem⟩
  · intro i hi hin
    exact h.index_heap i (by omega)
  · intro y hy hyx
    have hlt := h.index_lt y ((Finset.mem_insert.1 hy).resolve_left hyx)
    omega
  · intro y hy hyx
    exact h.heap_index y ((Finset.mem_insert.1 hy).resolve_left hyx)

theorem Lists.erase_last {members : Finset α} {n : Nat} {s : Slots α} (h : Lists members (n + 1) s) :
    Lists (members.erase (s.heap n)) n s := by
  refine ⟨?_, fun i hi => h.index_heap i (by omega), ?_,
    fun y hy => h.heap_index y (Finset.mem_of_mem_erase hy)⟩
  · intro i hi
    refine Finset.mem_erase.2 ⟨?_, h.mem i (by omega)⟩
    intro heq
    have := h.heap_injOn i n (by omega) (by omega) heq
    omega
  · intro y hy
    obtain ⟨hne, hmem⟩ := Finset.mem_erase.1 hy
    have hlt := h.index_lt y hmem
    have hlast : s.index y ≠ n := by
      intro heq
      exact hne (by rw [← heq, h.heap_index y hmem])
    omega

/-- The entry of the last slot takes the place of another one. -/
theorem Lists.erase_swap {members : Finset α} {n k : Nat} {s : Slots α} (h : Lists members (n + 1) s)
    (hk : k < n) : Lists (members.erase (s.heap k)) n (s.put k (s.heap n)) := by
  have hlast : s.heap n ≠ s.heap k := by
    intro heq
    have := h.heap_injOn n k (by omega) (by omega) heq
    omega
  refine ListsExcept.close ⟨Finset.mem_erase.2 ⟨hlast, h.mem n (by omega)⟩, hk, ?_, ?_, ?_, ?_⟩
  · intro i hi hik
    refine ⟨Finset.mem_erase.2 ⟨?_, h.mem i (by omega)⟩, ?_⟩
    · intro heq
      exact hik (h.heap_injOn i k (by omega) (by omega) heq)
    · intro heq
      have := h.heap_injOn i n (by omega) (by omega) heq
      omega
  · intro i hi _
    exact h.index_heap i (by omega)
  · intro y hy hyn
    obtain ⟨hyk, hmem⟩ := Finset.mem_erase.1 hy
    have hlt := h.index_lt y hmem
    have hne : s.index y ≠ n := by
      intro heq
      exact hyn (by rw [← heq, h.heap_index y hmem])
    refine ⟨by omega, ?_⟩
    intro heq
    exact hyk (by rw [← heq, h.heap_index y hmem])
  · intro y hy _
    exact h.heap_index y (Finset.mem_of_mem_erase hy)

variable {β : Type} [LinearOrder β]

/-- No entry comes before the one above it. -/
def IsHeap (key : α → β) (n : Nat) (s : Slots α) : Prop :=
  ∀ i, 0 < i → i < n → key (s.heap (parent i)) ≤ key (s.heap i)

/-- The edges that do not touch slot `k` are in order, and so are the entry above it and those below. -/
structure HoleAt (key : α → β) (n k : Nat) (s : Slots α) : Prop where
  edge : ∀ i, 0 < i → i < n → i ≠ k → parent i ≠ k → key (s.heap (parent i)) ≤ key (s.heap i)
  bridge : ∀ i, 0 < i → i < n → parent i = k → 0 < k → key (s.heap (parent k)) ≤ key (s.heap i)

/-- The entry above slot `k` may stay above `x`. -/
def FitsAbove (key : α → β) (k : Nat) (x : α) (s : Slots α) : Prop :=
  0 < k → key (s.heap (parent k)) ≤ key x

/-- The entries below slot `k` may stay below `x`. -/
def FitsBelow (key : α → β) (n k : Nat) (x : α) (s : Slots α) : Prop :=
  ∀ i, 0 < i → i < n → parent i = k → key x ≤ key (s.heap i)

section Order

variable {key : α → β} {n k : Nat} {x y : α} {s : Slots α}

omit [DecidableEq α] in
theorem IsHeap.root_le (h : IsHeap key n s) : ∀ i, i < n → key (s.heap 0) ≤ key (s.heap i) := by
  intro i
  induction i using Nat.strong_induction_on with
  | h i ih =>
      intro hi
      obtain rfl | hpos := Nat.eq_zero_or_pos i
      · exact le_rfl
      · have hlt := parent_lt hpos
        exact (ih (parent i) hlt (by omega)).trans (h i hpos hi)

omit [DecidableEq α] in
theorem IsHeap.holeAt {key' : α → β} (h : IsHeap key n s) (hk : k < n)
    (heq : ∀ i, i < n → i ≠ k → key' (s.heap i) = key (s.heap i)) : HoleAt key' n k s := by
  refine ⟨?_, ?_⟩
  · intro i hpos hi hik hparent
    have hlt := parent_lt hpos
    rw [heq i hi hik, heq (parent i) (by omega) hparent]
    exact h i hpos hi
  · intro i hpos hi hparent hkpos
    have hlt := parent_lt hpos
    have hlt' := parent_lt hkpos
    rw [heq i hi (by omega), heq (parent k) (by omega) (by omega)]
    have hupper := h k hkpos hk
    have hlower := h i hpos hi
    rw [hparent] at hlower
    exact hupper.trans hlower

theorem HoleAt.put (h : HoleAt key n k s) : HoleAt key n k (s.put k x) := by
  refine ⟨?_, ?_⟩
  · intro i hpos hi hik hparent
    rw [Slots.put_heap_of_ne hik, Slots.put_heap_of_ne hparent]
    exact h.edge i hpos hi hik hparent
  · intro i hpos hi hparent hkpos
    have hlt := parent_lt hpos
    have hlt' := parent_lt hkpos
    rw [Slots.put_heap_of_ne (show parent k ≠ k by omega), Slots.put_heap_of_ne (show i ≠ k by omega)]
    exact h.bridge i hpos hi hparent hkpos

theorem FitsAbove.put (h : FitsAbove key k x s) : FitsAbove key k x (s.put k y) := by
  intro hkpos
  have hlt := parent_lt hkpos
  rw [Slots.put_heap_of_ne (show parent k ≠ k by omega)]
  exact h hkpos

theorem IsHeap.holeAt_last (h : IsHeap key n s) : HoleAt key (n + 1) n (s.put n x) := by
  refine HoleAt.put ⟨?_, ?_⟩
  · intro i hpos hi hin hparent
    exact h i hpos (by omega)
  · intro i hpos hi hparent
    have hlt := parent_lt hpos
    omega

omit [DecidableEq α] in
theorem fitsBelow_last : FitsBelow key (n + 1) n x s := by
  intro i hpos hi hparent
  have hlt := parent_lt hpos
  omega

omit [DecidableEq α] in
theorem IsHeap.pred (h : IsHeap key (n + 1) s) : IsHeap key n s :=
  fun i hpos hi => h i hpos (by omega)

theorem HoleAt.close (h : HoleAt key n k s) (ha : FitsAbove key k x s) (hb : FitsBelow key n k x s) :
    IsHeap key n (s.put k x) := by
  intro i hpos hi
  have hlt := parent_lt hpos
  by_cases hik : i = k
  · subst hik
    rw [Slots.put_heap_self, Slots.put_heap_of_ne (show parent i ≠ i by omega)]
    exact ha hpos
  · rw [Slots.put_heap_of_ne hik]
    by_cases hparent : parent i = k
    · rw [hparent, Slots.put_heap_self]
      exact hb i hpos hi hparent
    · rw [Slots.put_heap_of_ne hparent]
      exact h.edge i hpos hi hik hparent

/-- The entry above the hole comes down into it. -/
theorem HoleAt.moveUp (h : HoleAt key n k s) (hk : k < n) (hkpos : 0 < k) :
    HoleAt key n (parent k) (s.put k (s.heap (parent k))) := by
  have hlt := parent_lt hkpos
  have hupper : 0 < parent k → key (s.heap (parent (parent k))) ≤ key (s.heap (parent k)) := by
    intro hpos
    have := parent_lt hpos
    exact h.edge (parent k) hpos (by omega) (by omega) (by omega)
  refine ⟨?_, ?_⟩
  · intro i hpos hi hne hparent
    have hik : i ≠ k := by
      intro heq
      exact hparent (by rw [heq])
    rw [Slots.put_heap_of_ne hik]
    by_cases heq : parent i = k
    · rw [heq, Slots.put_heap_self]
      exact h.bridge i hpos hi heq hkpos
    · rw [Slots.put_heap_of_ne heq]
      exact h.edge i hpos hi hik heq
  · intro i hpos hi hparent hpos'
    have hlt' := parent_lt hpos'
    rw [Slots.put_heap_of_ne (show parent (parent k) ≠ k by omega)]
    by_cases hik : i = k
    · subst hik
      rw [Slots.put_heap_self]
      exact hupper hpos'
    · rw [Slots.put_heap_of_ne hik]
      have hedge := h.edge i hpos hi hik (by omega)
      rw [hparent] at hedge
      exact (hupper hpos').trans hedge

theorem HoleAt.fitsBelow_moveUp (h : HoleAt key n k s) (hkpos : 0 < k)
    (hx : key x < key (s.heap (parent k))) :
    FitsBelow key n (parent k) x (s.put k (s.heap (parent k))) := by
  intro i hpos hi hparent
  by_cases hik : i = k
  · subst hik
    rw [Slots.put_heap_self]
    exact hx.le
  · have hlt := parent_lt hkpos
    have hedge := h.edge i hpos hi hik (by omega)
    rw [hparent] at hedge
    rw [Slots.put_heap_of_ne hik]
    exact hx.le.trans hedge

/-- The lesser of the entries below the hole comes up into it. -/
theorem HoleAt.moveDown {c : Nat} (h : HoleAt key n k s) (hc : c < n) (hcpos : 0 < c)
    (hparent : parent c = k) (hleast : ∀ i, 0 < i → i < n → parent i = k → key (s.heap c) ≤ key (s.heap i)) :
    HoleAt key n c (s.put k (s.heap c)) := by
  have hlt := parent_lt hcpos
  refine ⟨?_, ?_⟩
  · intro i hpos hi hic hparent'
    have hlt' := parent_lt hpos
    by_cases hik : i = k
    · subst hik
      rw [Slots.put_heap_self, Slots.put_heap_of_ne (show parent i ≠ i by omega)]
      exact h.bridge c hcpos hc hparent hpos
    · rw [Slots.put_heap_of_ne hik]
      by_cases heq : parent i = k
      · rw [heq, Slots.put_heap_self]
        exact hleast i hpos hi heq
      · rw [Slots.put_heap_of_ne heq]
        exact h.edge i hpos hi hik heq
  · intro i hpos hi hparent' _
    have hlt' := parent_lt hpos
    have hedge := h.edge i hpos hi (by omega) (by omega)
    rw [hparent'] at hedge
    rw [hparent, Slots.put_heap_self, Slots.put_heap_of_ne (show i ≠ k by omega)]
    exact hedge

end Order

/-! ### What the sifts come to

Both loops end by filling a hole. The pending entry fits under the parent of that hole, and after a sift
down also over its children. -/

section Sift

variable {key : α → β} {less : α → α → Bool} {members : Finset α} {n k : Nat} {x : α} {s : Slots α}

theorem siftUpLoop_spec (hless : ∀ a ∈ members, ∀ b ∈ members, less a b = true ↔ key a < key b) :
    ∀ (fuel k : Nat) (s : Slots α), k ≤ fuel → ListsExcept members n k x s → HoleAt key n k s →
      ∃ k' t, siftUpLoop less x fuel k s = t.put k' x ∧ ListsExcept members n k' x t
        ∧ HoleAt key n k' t ∧ FitsAbove key k' x t
        ∧ (FitsBelow key n k x s → FitsBelow key n k' x t)
        ∧ ∀ y, y ∉ members → t.index y = s.index y := by
  intro fuel
  induction fuel with
  | zero =>
      intro k s hfuel hl ho
      exact ⟨k, s, rfl, hl, ho, fun hpos => by omega, id, fun _ _ => rfl⟩
  | succ fuel ih =>
      intro k s hfuel hl ho
      rw [siftUpLoop]
      split_ifs with hmove
      · obtain ⟨hpos, hbefore⟩ := hmove
        have hlt := parent_lt hpos
        have hk := hl.hole_lt
        obtain ⟨hmem, -⟩ := hl.mem (parent k) (by omega) (by omega)
        have hkey := (hless x hl.pending _ hmem).1 hbefore
        obtain ⟨k', t, heq, hl', ho', ha, hb, hframe⟩ := ih (parent k) _ (by omega)
          (hl.move (show parent k < n by omega) (by omega)) (ho.moveUp hk hpos)
        refine ⟨k', t, heq, hl', ho', ha, fun _ => hb (ho.fitsBelow_moveUp hpos hkey), ?_⟩
        intro y hy
        have hne : y ≠ s.heap (parent k) := fun heq => hy (heq ▸ hmem)
        rw [hframe y hy, Slots.put_index_of_ne hne]
      · refine ⟨k, s, rfl, hl, ho, ?_, id, fun _ _ => rfl⟩
        intro hpos
        have hlt := parent_lt hpos
        have hk := hl.hole_lt
        obtain ⟨hmem, -⟩ := hl.mem (parent k) (by omega) (by omega)
        refine not_lt.1 ?_
        intro hkey
        exact hmove ⟨hpos, (hless x hl.pending _ hmem).2 hkey⟩

/-- The slot `c` is below the hole at `k`, none below it has a lesser key, and `x` comes no earlier. -/
structure Descends (key : α → β) (n k c : Nat) (x : α) (s : Slots α) : Prop where
  lt : c < n
  pos : 0 < c
  parent_eq : parent c = k
  least : ∀ i, 0 < i → i < n → parent i = k → key (s.heap c) ≤ key (s.heap i)
  le : key (s.heap c) ≤ key x

theorem siftDown_step {c : Nat} (hl : ListsExcept members n k x s) (ho : HoleAt key n k s)
    (hd : Descends key n k c x s) :
    ListsExcept members n c x (s.put k (s.heap c)) ∧ HoleAt key n c (s.put k (s.heap c))
      ∧ FitsAbove key c x (s.put k (s.heap c))
      ∧ ∀ y, y ∉ members → (s.put k (s.heap c)).index y = s.index y := by
  have hlt := parent_lt hd.pos
  have hparent := hd.parent_eq
  refine ⟨hl.move hd.lt (by omega), ho.moveDown hd.lt hd.pos hparent hd.least, ?_, ?_⟩
  · intro _
    rw [hparent, Slots.put_heap_self]
    exact hd.le
  · intro y hy
    have hmem := (hl.mem c hd.lt (by omega)).1
    exact Slots.put_index_of_ne fun heq => hy (heq ▸ hmem)

/-- What one round of the loop does: it stops at the hole, goes on from a slot below it, or stops there because
that slot is the last one. -/
theorem siftDownLoop_cases (hless : ∀ a ∈ members, ∀ b ∈ members, less a b = true ↔ key a < key b)
    (hl : ListsExcept members n k x s) (fuel : Nat) :
    FitsBelow key n k x s ∧ siftDownLoop less n x (fuel + 1) k s = s.put k x
    ∨ ∃ c, Descends key n k c x s
      ∧ (siftDownLoop less n x (fuel + 1) k s = siftDownLoop less n x fuel c (s.put k (s.heap c))
        ∨ FitsBelow key n c x (s.put k (s.heap c))
          ∧ siftDownLoop less n x (fuel + 1) k s = (s.put k (s.heap c)).put c x) := by
  have hchild : ∀ i, 0 < i → parent i = k → i = 2 * k + 1 ∨ i = 2 * k + 2 :=
    fun i hpos => eq_child_of_parent_eq hpos
  have hparent0 : parent (2 * k + 1) = k := by unfold parent; omega
  have hparent1 : parent (2 * k + 1 + 1) = k := by unfold parent; omega
  have hcmp : ∀ i, i < n → i ≠ k → (less (s.heap i) x = true ↔ key (s.heap i) < key x) :=
    fun i hi hik => hless _ (hl.mem i hi hik).1 _ hl.pending
  simp only [siftDownLoop]
  split_ifs with htwo hleft hright hright hone
  · have hleft' := (hcmp _ (by omega) (by omega)).1 hleft
    have hright' := (hless _ (hl.mem _ htwo (by omega)).1 _
      (hl.mem _ (show 2 * k + 1 < n by omega) (by omega)).1).1 hright
    refine .inr ⟨2 * k + 1 + 1, ⟨htwo, by omega, hparent1, ?_, (hright'.trans hleft').le⟩, .inl rfl⟩
    intro i hpos hi hparent
    obtain rfl | rfl := hchild i hpos hparent
    · exact hright'.le
    · exact le_rfl
  · have hleft' := (hcmp _ (by omega) (by omega)).1 hleft
    have hright' : key (s.heap (2 * k + 1)) ≤ key (s.heap (2 * k + 1 + 1)) := by
      refine not_lt.1 ?_
      intro hlt
      exact hright ((hless _ (hl.mem _ htwo (by omega)).1 _
        (hl.mem _ (show 2 * k + 1 < n by omega) (by omega)).1).2 hlt)
    refine .inr ⟨2 * k + 1, ⟨by omega, by omega, hparent0, ?_, hleft'.le⟩, .inl rfl⟩
    intro i hpos hi hparent
    obtain rfl | rfl := hchild i hpos hparent
    · exact le_rfl
    · exact hright'
  · have hright' := (hcmp _ htwo (by omega)).1 hright
    have hleft' : key x ≤ key (s.heap (2 * k + 1)) := by
      refine not_lt.1 ?_
      intro hlt
      exact hleft ((hcmp _ (by omega) (by omega)).2 hlt)
    refine .inr ⟨2 * k + 1 + 1, ⟨htwo, by omega, hparent1, ?_, hright'.le⟩, .inl rfl⟩
    intro i hpos hi hparent
    obtain rfl | rfl := hchild i hpos hparent
    · exact hright'.le.trans hleft'
    · exact le_rfl
  · refine .inl ⟨?_, rfl⟩
    intro i hpos hi hparent
    refine not_lt.1 ?_
    intro hlt
    have hbefore := (hcmp i hi (by have := parent_lt hpos; omega)).2 hlt
    obtain rfl | rfl := hchild i hpos hparent
    · exact hleft hbefore
    · exact hright hbefore
  · obtain ⟨hlast, hleft⟩ := hone
    have hleft' := (hcmp _ (by omega) (by omega)).1 hleft
    refine .inr ⟨2 * k + 1, ⟨by omega, by omega, hparent0, ?_, hleft'.le⟩, .inr ⟨?_, rfl⟩⟩
    · intro i hpos hi hparent
      obtain rfl | rfl := hchild i hpos hparent
      · exact le_rfl
      · omega
    · intro i hpos hi hparent
      obtain h | h := eq_child_of_parent_eq hpos hparent <;> omega
  · refine .inl ⟨?_, rfl⟩
    intro i hpos hi hparent
    refine not_lt.1 ?_
    intro hlt
    have hbefore := (hcmp i hi (by have := parent_lt hpos; omega)).2 hlt
    obtain rfl | rfl := hchild i hpos hparent
    · exact hone ⟨by omega, hbefore⟩
    · omega

theorem siftDownLoop_spec (hless : ∀ a ∈ members, ∀ b ∈ members, less a b = true ↔ key a < key b) :
    ∀ (fuel k : Nat) (s : Slots α), n ≤ k + fuel → ListsExcept members n k x s → HoleAt key n k s →
      FitsAbove key k x s →
      Lists members n (siftDownLoop less n x fuel k s)
        ∧ IsHeap key n (siftDownLoop less n x fuel k s)
        ∧ ∀ y, y ∉ members → (siftDownLoop less n x fuel k s).index y = s.index y := by
  intro fuel
  induction fuel with
  | zero =>
      intro k s hfuel hl
      have hk := hl.hole_lt
      omega
  | succ fuel ih =>
      intro k s hfuel hl ho ha
      obtain ⟨hb, heq⟩ | ⟨c, hd, hround⟩ := siftDownLoop_cases hless hl fuel
      · rw [heq]
        exact ⟨hl.close, ho.close ha hb, fun y hy => hl.put_index_of_notMem hy⟩
      · obtain ⟨hl', ho', ha', hframe⟩ := siftDown_step hl ho hd
        obtain heq | ⟨hb', heq⟩ := hround
        · have hlt := parent_lt hd.pos
          have hparent := hd.parent_eq
          obtain ⟨hlists, hheap, hframe'⟩ := ih c _ (by omega) hl' ho' ha'
          rw [heq]
          exact ⟨hlists, hheap, fun y hy => (hframe' y hy).trans (hframe y hy)⟩
        · rw [heq]
          exact ⟨hl'.close, ho'.close ha' hb', fun y hy => (hl'.put_index_of_notMem hy).trans (hframe y hy)⟩

theorem siftUp_isHeap (hless : ∀ a ∈ members, ∀ b ∈ members, less a b = true ↔ key a < key b)
    (hl : Lists members n s) (hk : k < n) (ho : HoleAt key n k s)
    (hb : FitsBelow key n k (s.heap k) s) :
    Lists members n (siftUp less k s) ∧ IsHeap key n (siftUp less k s)
      ∧ ∀ y, y ∉ members → (siftUp less k s).index y = s.index y := by
  obtain ⟨k', t, heq, hl', ho', ha, hb', hframe⟩ :=
    siftUpLoop_spec hless k k s le_rfl (hl.open hk) ho
  rw [siftUp, heq]
  refine ⟨hl'.close, ho'.close ha (hb' hb), ?_⟩
  intro y hy
  rw [hl'.put_index_of_notMem hy, hframe y hy]

theorem siftDown_isHeap (hless : ∀ a ∈ members, ∀ b ∈ members, less a b = true ↔ key a < key b)
    (hl : Lists members n s) (hk : k < n) (ho : HoleAt key n k s)
    (ha : FitsAbove key k (s.heap k) s) :
    Lists members n (siftDown less n k s) ∧ IsHeap key n (siftDown less n k s)
      ∧ ∀ y, y ∉ members → (siftDown less n k s).index y = s.index y :=
  siftDownLoop_spec hless n k s (by omega) (hl.open hk) ho ha

theorem siftDown_siftUp_isHeap
    (hless : ∀ a ∈ members, ∀ b ∈ members, less a b = true ↔ key a < key b)
    (hl : Lists members n s) (hk : k < n) (ho : HoleAt key n k s) :
    let t := siftUp less k s
    Lists members n (siftDown less n (t.index (s.heap k)) t)
      ∧ IsHeap key n (siftDown less n (t.index (s.heap k)) t)
      ∧ ∀ y, y ∉ members → (siftDown less n (t.index (s.heap k)) t).index y = s.index y := by
  obtain ⟨k', t, heq, hl', ho', ha, -, hframe⟩ :=
    siftUpLoop_spec hless k k s le_rfl (hl.open hk) ho
  have hat : FitsAbove key k' ((t.put k' (s.heap k)).heap k') (t.put k' (s.heap k)) := by
    rw [Slots.put_heap_self]
    exact ha.put
  obtain ⟨hlists, hheap, hframe'⟩ := siftDown_isHeap hless hl'.close hl'.hole_lt ho'.put hat
  simp only [siftUp, heq, Slots.put_index_self]
  refine ⟨hlists, hheap, ?_⟩
  intro y hy
  rw [hframe' y hy, hl'.put_index_of_notMem hy, hframe y hy]

end Sift

end BinaryHeap
