import Mathlib.Algebra.BigOperators.Group.List.Basic
import Mathlib.Algebra.Order.BigOperators.Group.List
import Mathlib.Data.Nat.Lattice
import Mathlib.Order.Interval.Finset.Nat
import Mathlib.Algebra.Ring.Int.Defs

/-!
# Choices by weight

A number is laid along a list of weighted entries, and the entry it falls into is chosen: the first one at
which the running sum of the weights exceeds it. Each entry has an interval of its own, as long as its
weight, and the intervals of all entries fill the numbers below the total.
-/

namespace Shares

variable {α : Type*} (weight : α → Int)

def total (l : List α) : Int := (l.map weight).sum

def pick (x : Int) : Int → List α → Option α
  | _, [] => none
  | sum, a :: rest => if x < sum + weight a then some a else pick x (sum + weight a) rest

@[simp]
theorem total_nil : total weight [] = 0 := rfl

@[simp]
theorem total_cons (a : α) (l : List α) : total weight (a :: l) = weight a + total weight l := List.sum_cons

theorem total_append (l r : List α) : total weight (l ++ r) = total weight l + total weight r := by
  simp [total]

variable {weight} {l before after : List α} {a : α} {x sum : Int}

theorem total_nonneg (h : ∀ b ∈ l, 0 ≤ weight b) : 0 ≤ total weight l := by
  apply List.sum_nonneg
  intro w hw
  obtain ⟨b, hb, rfl⟩ := List.mem_map.1 hw
  exact h b hb

theorem mem_of_pick (h : pick weight x sum l = some a) : a ∈ l := by
  induction l generalizing sum with
  | nil => cases h
  | cons b rest ih =>
      rw [pick] at h
      split_ifs at h
      · cases h
        exact List.mem_cons_self
      · exact List.mem_cons_of_mem b (ih h)

theorem pick_ne_none (hx : x < sum + total weight l) : sum ≤ x → pick weight x sum l ≠ none := by
  induction l generalizing sum with
  | nil =>
      intro hle
      rw [total_nil] at hx
      omega
  | cons b rest ih =>
      intro hle
      rw [total_cons] at hx
      rw [pick]
      split_ifs with hb
      · simp
      · exact ih (by omega) (by omega)

/-- An entry is chosen by the numbers between the sum of the weights before it and this sum with its own. -/
theorem pick_eq_some_iff (hnodup : (before ++ a :: after).Nodup) (h : ∀ b ∈ before, 0 ≤ weight b)
    (hx : sum ≤ x) :
    pick weight x sum (before ++ a :: after) = some a ↔
      sum + total weight before ≤ x ∧ x < sum + total weight before + weight a := by
  induction before generalizing sum with
  | nil =>
      have hlater : a ∉ after := (List.nodup_cons.1 hnodup).1
      rw [List.nil_append, pick, total_nil, add_zero]
      split_ifs with ha
      · simp [hx, ha]
      · simp only [ha, and_false, iff_false]
        exact fun hpick => hlater (mem_of_pick hpick)
  | cons b rest ih =>
      rw [List.cons_append, List.nodup_cons] at hnodup
      rw [List.forall_mem_cons] at h
      have hne : b ≠ a := by
        rintro rfl
        exact hnodup.1 (by simp)
      have hrest := total_nonneg h.2
      rw [List.cons_append, pick, total_cons]
      split_ifs with hb
      · simp only [Option.some.injEq, hne, false_iff]
        omega
      · rw [ih hnodup.2 h.2 (by omega)]
        constructor <;> rintro ⟨hlow, hhigh⟩ <;> constructor <;> omega

/-- Each entry is chosen by as many numbers below the total as its weight says. -/
theorem card_pick [DecidableEq α] (hnodup : l.Nodup) (h : ∀ b ∈ l, 0 ≤ weight b) (ha : a ∈ l) :
    (((Finset.range (total weight l).toNat).filter fun x : Nat => pick weight x 0 l = some a).card : Int)
      = weight a := by
  obtain ⟨before, after, rfl⟩ := List.append_of_mem ha
  have hbefore : ∀ b ∈ before, 0 ≤ weight b := fun b hb => h b (List.mem_append_left _ hb)
  have hafter : ∀ b ∈ after, 0 ≤ weight b := fun b hb => h b (by simp [hb])
  have hown := h a ha
  have hlow := total_nonneg hbefore
  have hhigh := total_nonneg hafter
  have hpicks : ((Finset.range (total weight (before ++ a :: after)).toNat).filter fun x : Nat =>
        pick weight x 0 (before ++ a :: after) = some a)
      = Finset.Ico (total weight before).toNat (total weight before + weight a).toNat := by
    ext x
    rw [Finset.mem_filter, Finset.mem_range, Finset.mem_Ico, total_append, total_cons,
      pick_eq_some_iff hnodup hbefore (by omega)]
    omega
  rw [hpicks, Nat.card_Ico]
  omega

end Shares
