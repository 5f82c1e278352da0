import Mathlib.Algebra.BigOperators.Group.List.Basic
import Mathlib.Algebra.GroupWithZero.Nat

/-!
# A list with one entry replaced

Up to the order of its entries, a list is one of them and the others, and to replace that one leaves the others. What
is counted or summed over the list changes by what the one entry adds, stated without subtraction.
-/

namespace ListSet

variable {α : Type*} {l : List α} {i : Nat} {a : α}

theorem exists_others (h : l[i]? = some a) : ∃ others, l.Perm (a :: others) ∧ ∀ b, (l.set i b).Perm (b :: others) := by
  obtain ⟨hi, rfl⟩ := List.getElem?_eq_some_iff.mp h
  exact ⟨l.eraseIdx i, (List.getElem_cons_eraseIdx_perm hi).symm, List.set_perm_cons_eraseIdx hi⟩

theorem sum_map_set_add (f : α → Nat) (h : l[i]? = some a) (b : α) :
    ((l.set i b).map f).sum + f a = (l.map f).sum + f b := by
  obtain ⟨others, hold, hnew⟩ := exists_others h
  rw [(hold.map f).sum_eq, ((hnew b).map f).sum_eq, List.map_cons, List.map_cons, List.sum_cons, List.sum_cons]
  omega

theorem countP_set_add (p : α → Bool) (h : l[i]? = some a) (b : α) :
    (l.set i b).countP p + (if p a = true then 1 else 0) = l.countP p + (if p b = true then 1 else 0) := by
  obtain ⟨others, hold, hnew⟩ := exists_others h
  rw [hold.countP_eq, (hnew b).countP_eq, List.countP_cons, List.countP_cons]
  omega

theorem countP_add_one {p q : α → Bool} (hnodup : l.Nodup) (hmem : a ∈ l) (hp : p a = false)
    (hq : q a = true) (hother : ∀ b, b ≠ a → q b = p b) : l.countP q = l.countP p + 1 := by
  classical
  have hothers : (l.erase a).countP q = (l.erase a).countP p := by
    refine List.countP_congr fun b hb => ?_
    rw [hother b (by rintro rfl; exact hnodup.not_mem_erase hb)]
  have hperm := List.perm_cons_erase hmem
  calc
    l.countP q = (a :: l.erase a).countP q := hperm.countP_eq q
    _ = (l.erase a).countP q + 1 := List.countP_cons_of_pos hq
    _ = (l.erase a).countP p + 1 := by rw [hothers]
    _ = (a :: l.erase a).countP p + 1 := by rw [List.countP_cons_of_neg (by simp [hp])]
    _ = l.countP p + 1 := by rw [hperm.countP_eq p]

theorem count_set_add [DecidableEq α] (h : l[i]? = some a) (b c : α) :
    (l.set i b).count c + (if a = c then 1 else 0) = l.count c + if b = c then 1 else 0 := by
  simpa only [List.count, beq_iff_eq] using countP_set_add (· == c) h b

theorem filterMap_set_perm {β : Type*} (f : α → Option β) (h : l[i]? = some a) (b : α) :
    ((f a).toList ++ (l.set i b).filterMap f).Perm ((f b).toList ++ l.filterMap f) := by
  obtain ⟨others, hold, hnew⟩ := exists_others h
  have hcons : ∀ c, (c :: others).filterMap f = (f c).toList ++ others.filterMap f := by
    intro c
    cases hc : f c <;> simp [hc]
  calc
    ((f a).toList ++ (l.set i b).filterMap f).Perm ((f a).toList ++ ((f b).toList ++ others.filterMap f)) :=
      (hcons b ▸ (hnew b).filterMap f).append_left _
    List.Perm _ ((f b).toList ++ ((f a).toList ++ others.filterMap f)) := by
      rw [← List.append_assoc, ← List.append_assoc]
      exact List.perm_append_comm.append_right _
    List.Perm _ ((f b).toList ++ l.filterMap f) := (hcons a ▸ (hold.filterMap f).symm).append_left _

end ListSet
