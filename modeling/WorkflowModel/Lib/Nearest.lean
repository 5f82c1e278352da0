import Mathlib.Data.List.MinMax

/-!
# Scans for the nearest candidate

A scan keeps the least distance it has met and the candidate that has it, and replaces them only by a
candidate that is strictly nearer. Below a start that all distances stay under this is `List.argmin`, so a
tie goes to the candidate that comes first. Candidates that did not win can be left out of the scan.
-/

namespace Nearest

variable {α ι β : Type*} [LinearOrder β]

def scanStep (dist : α → β) (best : β × Option α) (a : α) : β × Option α :=
  if dist a < best.1 then (dist a, some a) else best

theorem foldl_scanStep {dist : α → β} {start : β} {l : List α} (h : ∀ a ∈ l, dist a < start) :
    l.foldl (scanStep dist) (start, none) = (((l.argmin dist).map dist).getD start, l.argmin dist) := by
  induction l using List.reverseRecOn with
  | nil => rfl
  | append_singleton l a ih =>
      rw [List.foldl_append, ih fun b hb => h b (List.mem_append_left _ hb), List.argmin_concat]
      have ha : dist a < start := h a (by simp)
      cases l.argmin dist with
      | none => simp [scanStep, ha]
      | some c =>
          simp only [List.foldl_cons, List.foldl_nil, scanStep, Option.map_some, Option.getD_some]
          split_ifs <;> rfl

/-- The nearest candidate is the nearest one among any of the others. -/
theorem argmin_filter {dist : α → β} {l : List α} {a : α} {p : α → Bool}
    (ha : l.argmin dist = some a) (hp : p a = true) : (l.filter p).argmin dist = some a := by
  induction l generalizing a with
  | nil => simp at ha
  | cons b l ih =>
      rw [List.argmin_cons] at ha
      cases hmin : l.argmin dist with
      | none =>
          rw [hmin] at ha
          cases ha
          rw [List.argmin_eq_none.1 hmin, List.filter_cons_of_pos hp]
          rfl
      | some c =>
          rw [hmin] at ha
          dsimp only at ha
          split_ifs at ha with hlt
          · cases ha
            have hkept := ih hmin hp
            by_cases hb : p b = true
            · rw [List.filter_cons_of_pos hb, List.argmin_cons, hkept]
              exact if_pos hlt
            · rw [List.filter_cons_of_neg hb]
              exact hkept
          · cases ha
            rw [List.filter_cons_of_pos hp, List.argmin_cons]
            cases hfiltered : (l.filter p).argmin dist with
            | none => rfl
            | some d =>
                have hmem : d ∈ l := (List.mem_filter.1 (List.argmin_mem hfiltered)).1
                have hle : dist c ≤ dist d := List.le_of_mem_argmin hmem hmin
                exact if_neg fun hnear => hlt (lt_of_le_of_lt hle hnear)

theorem map_argmin_filter_ne [DecidableEq ι] {dist : α → β} {owner : α → ι} {l : List α} {m : ι}
    (h : (l.argmin dist).map owner ≠ some m) :
    ((l.filter fun a => owner a ≠ m).argmin dist).map owner = (l.argmin dist).map owner := by
  cases hmin : l.argmin dist with
  | none => rw [List.argmin_eq_none.1 hmin, List.filter_nil, List.argmin_nil]
  | some a =>
      have howner : owner a ≠ m := by
        intro heq
        rw [hmin, Option.map_some, heq] at h
        exact h rfl
      rw [argmin_filter hmin (by simpa using howner)]

end Nearest
