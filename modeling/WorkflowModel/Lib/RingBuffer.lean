import Mathlib.Data.List.Range
import Mathlib.Data.List.Nodup
import Mathlib.Data.Nat.ModEq
import Mathlib.Logic.Function.Basic

/-!
# Ring buffers

A ring of `size` slots holds a sequence from the slot `front` on, around the end if need be. The sequence is
read off the slots, so a push or a pop at either end is an equation between two readings.
-/

namespace RingBuffer

variable {α : Type*} {ring ring' : Nat → α} {size front n : Nat}

/-- The next slot around the ring. -/
def next (size i : Nat) : Nat := if i + 1 = size then 0 else i + 1

/-- The slot before, around the ring. -/
def prev (size i : Nat) : Nat := if i = 0 then size - 1 else i - 1

/-- The `n` slots from `front` on. -/
def slots (size front n : Nat) : List Nat := (List.range n).map fun i => (front + i) % size

/-- What these slots hold. -/
def window (ring : Nat → α) (size front n : Nat) : List α := (slots size front n).map ring

theorem next_eq_mod {i : Nat} (hi : i < size) : next size i = (i + 1) % size := by
  unfold next
  split
  · rename_i hwrap
    rw [hwrap, Nat.mod_self]
  · rw [Nat.mod_eq_of_lt (by omega)]

theorem next_lt {i : Nat} (hi : i < size) : next size i < size := by
  rw [next_eq_mod hi]
  exact Nat.mod_lt _ (by omega)

theorem prev_lt {i : Nat} (hi : i < size) : prev size i < size := by
  unfold prev
  split <;> omega

theorem next_prev {i : Nat} (hi : i < size) : next size (prev size i) = i := by
  unfold next prev
  split <;> split <;> omega

theorem mod_add_next {i : Nat} (hi : i < size) (k : Nat) : (next size i + k) % size = (i + (k + 1)) % size := by
  rw [next_eq_mod hi, Nat.mod_add_mod]
  congr 1
  omega

theorem mod_add_eq_iff (hfront : front < size) (hn : n < size) : (front + n) % size = front ↔ n = 0 := by
  constructor
  · intro hsame
    by_contra hne
    rcases Nat.lt_or_ge (front + n) size with hlt | hge
    · rw [Nat.mod_eq_of_lt hlt] at hsame
      omega
    · rw [Nat.mod_eq_sub_mod hge, Nat.mod_eq_of_lt (by omega)] at hsame
      omega
  · rintro rfl
    exact Nat.mod_eq_of_lt hfront

theorem slots_snoc (size front n : Nat) : slots size front (n + 1) = slots size front n ++ [(front + n) % size] := by
  rw [slots, List.range_succ, List.map_append, List.map_singleton]
  rfl

theorem slots_cons (hfront : front < size) (n : Nat) :
    slots size front (n + 1) = front :: slots size (next size front) n := by
  rw [slots, List.range_succ_eq_map, List.map_cons, List.map_map, Nat.add_zero, Nat.mod_eq_of_lt hfront]
  congr 1
  apply List.map_congr_left
  intro k _
  exact (mod_add_next hfront k).symm

theorem nodup_slots (front : Nat) (hn : n ≤ size) : (slots size front n).Nodup := by
  apply List.Nodup.map_on _ List.nodup_range
  intro i hi j hj hsame
  rw [List.mem_range] at hi hj
  have hmod : i % size = j % size := Nat.ModEq.add_left_cancel' front hsame
  rwa [Nat.mod_eq_of_lt (by omega), Nat.mod_eq_of_lt (by omega)] at hmod

theorem window_update_of_notMem {i : Nat} {x : α} (hi : i ∉ slots size front n) :
    window (Function.update ring i x) size front n = window ring size front n := by
  apply List.map_congr_left
  intro j hj
  apply Function.update_of_ne
  rintro rfl
  exact hi hj

theorem window_snoc (hn : n < size) (x : α) :
    window (Function.update ring ((front + n) % size) x) size front (n + 1) = window ring size front n ++ [x] := by
  have hnodup := nodup_slots front (show n + 1 ≤ size from hn)
  rw [slots_snoc, List.nodup_append] at hnodup
  have hout : (front + n) % size ∉ slots size front n := by
    intro hin
    exact hnodup.2.2 _ hin _ (List.mem_singleton_self _) rfl
  calc
    window (Function.update ring ((front + n) % size) x) size front (n + 1)
        = window (Function.update ring ((front + n) % size) x) size front n ++ [x] := by
          rw [window, slots_snoc, List.map_append, List.map_singleton, Function.update_self]
          rfl
    _ = window ring size front n ++ [x] := by rw [window_update_of_notMem hout]

theorem window_cons (hfront : front < size) (hn : n < size) (x : α) :
    window (Function.update ring (prev size front) x) size (prev size front) (n + 1)
      = x :: window ring size front n := by
  have hnodup := nodup_slots (prev size front) (show n + 1 ≤ size from hn)
  rw [slots_cons (prev_lt hfront), next_prev hfront, List.nodup_cons] at hnodup
  rw [window, slots_cons (prev_lt hfront), next_prev hfront, List.map_cons, Function.update_self]
  congr 1
  exact window_update_of_notMem hnodup.1

theorem window_pop (ring : Nat → α) (hfront : front < size) (n : Nat) :
    window ring size front (n + 1) = ring front :: window ring size (next size front) n := by
  rw [window, slots_cons hfront, List.map_cons]
  rfl

theorem window_copy {size' : Nat} (hn : n ≤ size') (hcopy : ∀ k < n, ring' k = ring ((front + k) % size)) :
    window ring' size' 0 n = window ring size front n := by
  rw [window, window, slots, slots, List.map_map, List.map_map]
  apply List.map_congr_left
  intro k hk
  rw [List.mem_range] at hk
  rw [Function.comp_apply, Function.comp_apply, Nat.zero_add, Nat.mod_eq_of_lt (by omega)]
  exact hcopy k hk

end RingBuffer
