import Mathlib.Data.List.Induction
import Mathlib.Logic.Function.Basic

/-!
# Maps to lists

A map from keys to lists of values, as one builds it to group entries by their keys. A key that was looked
up with the operator that inserts has an empty list, which is not the same as no list at all.
-/

namespace Multimap

variable {κ β : Type*} [DecidableEq κ]

/-- The value is put behind the others of its key. -/
def push (k : κ) (b : β) (m : κ → Option (List β)) : κ → Option (List β) :=
  Function.update m k (some ((m k).getD [] ++ [b]))

/-- The key gets an empty list if it has none. -/
def touch (k : κ) (m : κ → Option (List β)) : κ → Option (List β) :=
  Function.update m k (some ((m k).getD []))

def ofList (entries : List (κ × β)) : κ → Option (List β) :=
  entries.foldl (fun m entry => push entry.1 entry.2 m) fun _ => none

def touchAll (keys : List κ) (m : κ → Option (List β)) : κ → Option (List β) :=
  keys.foldl (fun m k => touch k m) m

/-- The values of the entries with a key, in their order. -/
def valuesOf (k : κ) (entries : List (κ × β)) : List β :=
  (entries.filter fun entry => entry.1 = k).map Prod.snd

theorem valuesOf_append (k : κ) (l r : List (κ × β)) :
    valuesOf k (l ++ r) = valuesOf k l ++ valuesOf k r := by
  simp [valuesOf]

theorem push_apply (k j : κ) (b : β) (m : κ → Option (List β)) :
    push k b m j = if j = k then some ((m j).getD [] ++ [b]) else m j := by
  unfold push
  split_ifs with hj
  · rw [hj, Function.update_self]
  · rw [Function.update_of_ne hj]

theorem touch_apply (k j : κ) (m : κ → Option (List β)) :
    touch k m j = if j = k then some ((m j).getD []) else m j := by
  unfold touch
  split_ifs with hj
  · rw [hj, Function.update_self]
  · rw [Function.update_of_ne hj]

/-- Every key has the list of its values, and a key without values has none. -/
theorem ofList_apply (entries : List (κ × β)) (k : κ) :
    ofList entries k = if valuesOf k entries = [] then none else some (valuesOf k entries) := by
  induction entries using List.reverseRecOn with
  | nil => rfl
  | append_singleton before entry ih =>
      have hstep : ofList (before ++ [entry]) = push entry.1 entry.2 (ofList before) := by
        simp [ofList]
      rw [hstep, push_apply, valuesOf_append, ih]
      by_cases hk : k = entry.1
      · have hone : valuesOf k [entry] = [entry.2] := by simp [valuesOf, hk]
        have hdefault : (if valuesOf k before = [] then none else some (valuesOf k before)).getD []
            = valuesOf k before := by
          split_ifs with hempty
          · exact hempty.symm
          · rfl
        rw [if_pos hk, hone, hdefault, if_neg (by simp)]
      · have hnone : valuesOf k [entry] = [] := by simp [valuesOf, Ne.symm hk]
        rw [if_neg hk, hnone, List.append_nil]

theorem touchAll_apply (keys : List κ) (m : κ → Option (List β)) (k : κ) :
    touchAll keys m k = if k ∈ keys then some ((m k).getD []) else m k := by
  induction keys using List.reverseRecOn with
  | nil => rfl
  | append_singleton before j ih =>
      have hstep : touchAll (before ++ [j]) m = touch j (touchAll before m) := by
        simp [touchAll]
      rw [hstep, touch_apply, ih]
      obtain rfl | hk := eq_or_ne k j
      · by_cases hmem : k ∈ before <;> simp [hmem]
      · simp [hk]

end Multimap
