import Mathlib.Data.List.Basic

/-!
# Doubly linked rings

A memory has two pointers for each address. A ring is a head and a list of nodes, all different, of which each is the
`next` of the one before it and the `prev` of the one after it. Whatever is done to rings is done by joining two
addresses: the first one gets the second as its `next`, and the second the first as its `prev`. That makes one edge,
and keeps all edges that do not start at the first address or end at the second.
-/

namespace LinkedRing

variable {α : Type*}

structure Links (α : Type*) where
  next : α → α
  prev : α → α

namespace Links

variable [DecidableEq α]

def setNext (m : Links α) (a b : α) : Links α := { m with next := Function.update m.next a b }

def setPrev (m : Links α) (b a : α) : Links α := { m with prev := Function.update m.prev b a }

def join (m : Links α) (a b : α) : Links α := (m.setPrev b a).setNext a b

end Links

variable {m : Links α} {a b n head : α} {nodes before after : List α}

def Edge (m : Links α) (e : α × α) : Prop := m.next e.1 = e.2 ∧ m.prev e.2 = e.1

/-- The pairs of neighbours. -/
def edges : List α → List (α × α)
  | a :: b :: l => (a, b) :: edges (b :: l)
  | _ => []

theorem edges_append (before after : List α) (a b : α) :
    edges (before ++ a :: b :: after) = edges (before ++ [a]) ++ (a, b) :: edges (b :: after) := by
  induction before with
  | nil => rfl
  | cons c before ih =>
      cases before with
      | nil => rfl
      | cons d before => exact congrArg ((c, d) :: ·) ih

theorem map_fst_edges (a : α) (l : List α) : (edges (a :: l)).map Prod.fst = (a :: l).dropLast := by
  induction l generalizing a with
  | nil => rfl
  | cons b l ih => rw [edges, List.map_cons, ih, List.dropLast_cons_cons]

theorem map_snd_edges (a : α) (l : List α) : (edges (a :: l)).map Prod.snd = l := by
  induction l generalizing a with
  | nil => rfl
  | cons b l ih => rw [edges, List.map_cons, ih]

section

variable [DecidableEq α]

theorem edge_join (m : Links α) (a b : α) : Edge (m.join a b) (a, b) :=
  ⟨Function.update_self .., Function.update_self ..⟩

theorem Edge.join {e : α × α} (h : Edge m e) (ha : e.1 ≠ a) (hb : e.2 ≠ b) : Edge (m.join a b) e :=
  ⟨(Function.update_of_ne ha ..).trans h.1, (Function.update_of_ne hb ..).trans h.2⟩

end

structure Ring (m : Links α) (head : α) (nodes : List α) : Prop where
  edge : ∀ e ∈ edges (head :: (nodes ++ [head])), Edge m e
  nodup : (head :: nodes).Nodup

theorem fst_mem_of_mem_edges {e : α × α} (he : e ∈ edges (head :: (nodes ++ [head]))) : e.1 ∈ head :: nodes := by
  have hmem := List.mem_map_of_mem (f := Prod.fst) he
  rw [map_fst_edges, ← List.cons_append, List.dropLast_concat] at hmem
  exact hmem

theorem snd_mem_of_mem_edges {e : α × α} (he : e ∈ edges (head :: (nodes ++ [head]))) : e.2 ∈ head :: nodes := by
  have hmem := List.mem_map_of_mem (f := Prod.snd) he
  rw [map_snd_edges] at hmem
  simpa [or_comm] using hmem

namespace Ring

theorem next_head (h : Ring m head (n :: nodes)) : m.next head = n :=
  (h.edge (head, n) List.mem_cons_self).1

theorem edge_of_append (h : Ring m head nodes) (heq : head :: (nodes ++ [head]) = before ++ a :: b :: after) :
    m.next a = b ∧ m.prev b = a := by
  refine h.edge (a, b) ?_
  rw [heq, edges_append]
  exact List.mem_append_right _ List.mem_cons_self

theorem ne_of_append (h : Ring m head nodes) {e : α × α} (heq : head :: (nodes ++ [head]) = before ++ a :: b :: after)
    (he : e ∈ edges (before ++ [a]) ++ edges (b :: after)) : e.1 ≠ a ∧ e.2 ≠ b := by
  have hedges : edges (head :: (nodes ++ [head])) = edges (before ++ [a]) ++ (a, b) :: edges (b :: after) := by
    rw [heq, edges_append]
  have hfst : ((edges (before ++ [a]) ++ (a, b) :: edges (b :: after)).map Prod.fst).Nodup := by
    rw [← hedges, map_fst_edges, ← List.cons_append, List.dropLast_concat]
    exact h.nodup
  have hsnd : ((edges (before ++ [a]) ++ (a, b) :: edges (b :: after)).map Prod.snd).Nodup := by
    rw [← hedges, map_snd_edges]
    exact (List.perm_append_singleton head nodes).nodup_iff.mpr h.nodup
  rw [List.map_append, List.map_cons] at hfst hsnd
  have hfst := (List.perm_middle.nodup_iff.mp hfst)
  have hsnd := (List.perm_middle.nodup_iff.mp hsnd)
  rw [← List.map_append, List.nodup_cons] at hfst hsnd
  exact ⟨fun heq => hfst.1 (List.mem_map.mpr ⟨e, he, heq⟩), fun heq => hsnd.1 (List.mem_map.mpr ⟨e, he, heq⟩)⟩

end Ring

section

variable [DecidableEq α] {xs ys : List α} {list first last : α}

theorem ring_join_self (m : Links α) (head : α) : Ring (m.join head head) head [] where
  edge := by
    intro e he
    obtain rfl := List.mem_singleton.mp he
    exact edge_join m head head
  nodup := by simp

theorem Ring.join (h : Ring m head nodes) (ha : a ∉ head :: nodes) (hb : b ∉ head :: nodes) :
    Ring (m.join a b) head nodes where
  edge := by
    intro e he
    refine (h.edge e he).join ?_ ?_
    · rintro rfl
      exact ha (fst_mem_of_mem_edges he)
    · rintro rfl
      exact hb (snd_mem_of_mem_edges he)
  nodup := h.nodup

/-- A node is put between two neighbours. -/
theorem Ring.insert (h : Ring m head (xs ++ ys)) (hn : n ∉ head :: (xs ++ ys)) (ha : head :: xs = before ++ [a])
    (hb : ys ++ [head] = b :: after) : Ring ((m.join n b).join a n) head (xs ++ n :: ys) := by
  have hold : head :: (xs ++ ys ++ [head]) = before ++ a :: b :: after := by
    rw [List.append_assoc, hb, ← List.cons_append, ha, List.append_assoc]
    rfl
  have hnew : head :: (xs ++ n :: ys ++ [head]) = before ++ a :: n :: b :: after := by
    rw [List.append_assoc, List.cons_append, hb, ← List.cons_append, ha, List.append_assoc]
    rfl
  have hmem : ∀ e ∈ edges (before ++ [a]) ++ edges (b :: after), e ∈ edges (head :: (xs ++ ys ++ [head])) := by
    intro e he
    rw [hold, edges_append]
    obtain he | he := List.mem_append.mp he
    · exact List.mem_append_left _ he
    · exact List.mem_append_right _ (List.mem_cons_of_mem _ he)
  have hmema : a ∈ head :: (xs ++ ys) :=
    List.mem_append_left ys (ha ▸ List.mem_append_right _ (List.mem_singleton_self a) : a ∈ head :: xs)
  have hmemb : b ∈ head :: (xs ++ ys) := by
    have hb' : b ∈ ys ++ [head] := hb ▸ List.mem_cons_self
    simp only [List.mem_append, List.mem_cons] at hb' ⊢
    tauto
  have hkeep : ∀ e ∈ edges (before ++ [a]) ++ edges (b :: after), Edge ((m.join n b).join a n) e := by
    intro e he
    obtain ⟨hea, heb⟩ := h.ne_of_append hold he
    have hfst := fst_mem_of_mem_edges (hmem e he)
    have hsnd := snd_mem_of_mem_edges (hmem e he)
    refine ((h.edge e (hmem e he)).join ?_ heb).join hea ?_
    · rintro rfl
      exact hn hfst
    · rintro rfl
      exact hn hsnd
  constructor
  · intro e he
    rw [hnew, edges_append, edges] at he
    obtain he | he := List.mem_append.mp he
    · exact hkeep e (List.mem_append_left _ he)
    obtain rfl | he := List.mem_cons.mp he
    · exact edge_join _ a n
    obtain rfl | he := List.mem_cons.mp he
    · exact (edge_join m n b).join (fun hna : n = a => hn (hna ▸ hmema)) fun hbn : b = n => hn (hbn ▸ hmemb)
    · exact hkeep e (List.mem_append_right _ he)
  · have hperm : (head :: (xs ++ n :: ys)).Perm (n :: head :: (xs ++ ys)) :=
      (List.perm_middle.cons head).trans (.swap ..)
    exact hperm.nodup_iff.mpr (List.nodup_cons.mpr ⟨hn, h.nodup⟩)

/-- The two neighbours of a node are joined. -/
theorem Ring.remove (h : Ring m head (xs ++ n :: ys)) (ha : head :: xs = before ++ [a])
    (hb : ys ++ [head] = b :: after) : Ring (m.join a b) head (xs ++ ys) ∧ m.prev n = a ∧ m.next n = b := by
  have hnew : head :: (xs ++ ys ++ [head]) = before ++ a :: b :: after := by
    rw [List.append_assoc, hb, ← List.cons_append, ha, List.append_assoc]
    rfl
  have hold : head :: (xs ++ n :: ys ++ [head]) = before ++ a :: n :: b :: after := by
    rw [List.append_assoc, List.cons_append, hb, ← List.cons_append, ha, List.append_assoc]
    rfl
  have hold' : head :: (xs ++ n :: ys ++ [head]) = (before ++ [a]) ++ n :: b :: after := by
    rw [hold, List.append_assoc]
    rfl
  have hmem : ∀ e ∈ edges (before ++ [a]) ++ edges (b :: after), e ∈ edges (head :: (xs ++ n :: ys ++ [head])) := by
    intro e he
    rw [hold, edges_append, edges]
    obtain he | he := List.mem_append.mp he
    · exact List.mem_append_left _ he
    · exact List.mem_append_right _ (List.mem_cons_of_mem _ (List.mem_cons_of_mem _ he))
  refine ⟨⟨?_, ?_⟩, (h.edge_of_append hold).2, (h.edge_of_append hold').1⟩
  · intro e he
    rw [hnew, edges_append] at he
    have hkeep : e ∈ edges (before ++ [a]) ++ edges (b :: after) → Edge (m.join a b) e := by
      intro he
      refine (h.edge e (hmem e he)).join (h.ne_of_append hold ?_).1 (h.ne_of_append hold' ?_).2
      · obtain he | he := List.mem_append.mp he
        · exact List.mem_append_left _ he
        · exact List.mem_append_right _ (List.mem_cons_of_mem _ he)
      · rw [List.append_assoc, List.cons_append, List.nil_append, edges_append, List.append_assoc]
        obtain he | he := List.mem_append.mp he
        · exact List.mem_append_left _ he
        · exact List.mem_append_right _ (List.mem_cons_of_mem _ he)
    obtain he | he := List.mem_append.mp he
    · exact hkeep (List.mem_append_left _ he)
    obtain rfl | he := List.mem_cons.mp he
    · exact edge_join m a b
    · exact hkeep (List.mem_append_right _ he)
  · have hperm : (head :: (xs ++ n :: ys)).Perm (n :: head :: (xs ++ ys)) :=
      (List.perm_middle.cons head).trans (.swap ..)
    exact (List.nodup_cons.mp (hperm.nodup_iff.mp h.nodup)).2

/-- The nodes of one ring are put in front of those of another. -/
theorem Ring.splice (h : Ring m head ys) (h' : Ring m list xs) (hdisjoint : ∀ x ∈ head :: ys, x ∉ list :: xs)
    (hfirst : xs = first :: after) (hlast : xs = before ++ [last]) :
    Ring ((m.join head first).join last (m.next head)) head (xs ++ ys) := by
  have hring : list :: (xs ++ [list]) = [] ++ list :: first :: (after ++ [list]) := by rw [hfirst]; rfl
  have hring' : list :: (xs ++ [list]) = (list :: before) ++ last :: list :: [] := by
    rw [hlast, List.append_assoc]
    rfl
  obtain ⟨at', rest, hat⟩ : ∃ at' rest, ys ++ [head] = at' :: rest := List.exists_cons_of_ne_nil (by simp)
  have hhead : head :: (ys ++ [head]) = [] ++ head :: at' :: rest := by rw [hat]; rfl
  obtain rfl : m.next head = at' := (h.edge_of_append hhead).1
  have hinner : ∀ e ∈ edges xs, e ∈ edges (first :: (after ++ [list])) := by
    intro e he
    rw [← List.cons_append, ← hfirst, hlast, List.append_assoc, List.cons_append, List.nil_append, edges_append, ← hlast]
    exact List.mem_append_left _ he
  have hfirstmem : first ∈ list :: xs := List.mem_cons_of_mem list (hfirst ▸ List.mem_cons_self)
  have hlastmem : last ∈ list :: xs := List.mem_cons_of_mem list (hlast ▸ List.mem_append_right _ List.mem_cons_self)
  have hnextmem : m.next head ∈ head :: ys := by
    have hmem : m.next head ∈ ys ++ [head] := hat ▸ List.mem_cons_self
    simp only [List.mem_append, List.mem_cons] at hmem ⊢
    tauto
  have hnew : head :: (xs ++ ys ++ [head]) = (head :: before) ++ last :: m.next head :: rest := by
    rw [List.append_assoc, hat, hlast, List.append_assoc]
    rfl
  constructor
  · intro e he
    rw [hnew, edges_append, List.cons_append, ← hlast, hfirst, edges, ← hfirst] at he
    obtain he | he := List.mem_append.mp he
    · obtain rfl | he := List.mem_cons.mp he
      · exact (edge_join m head first).join (fun heq : head = last => hdisjoint head List.mem_cons_self (heq ▸ hlastmem))
          fun heq : first = m.next head => hdisjoint _ hnextmem (heq ▸ hfirstmem)
      · have hold : e ∈ edges (list :: (xs ++ [list])) := by
          rw [hring]
          exact List.mem_cons_of_mem _ (hinner e he)
        have hfst := fst_mem_of_mem_edges hold
        have hsnd := snd_mem_of_mem_edges hold
        have hnefirst := (h'.ne_of_append hring (List.mem_append_right _ (hinner e he))).2
        have hnelast := (h'.ne_of_append (e := e) hring' (List.mem_append_left _ (by
          rw [List.cons_append, ← hlast, hfirst, edges, ← hfirst]
          exact List.mem_cons_of_mem _ he))).1
        refine ((h'.edge e hold).join ?_ hnefirst).join hnelast ?_
        · exact fun heq => hdisjoint head List.mem_cons_self (heq ▸ hfst)
        · exact fun heq => hdisjoint _ hnextmem (heq ▸ hsnd)
    obtain rfl | he := List.mem_cons.mp he
    · exact edge_join _ last (m.next head)
    · have hold : e ∈ edges (head :: (ys ++ [head])) := by
        rw [hhead]
        exact List.mem_cons_of_mem _ he
      obtain ⟨hnehead, hnenext⟩ := h.ne_of_append hhead (List.mem_append_right _ he)
      refine ((h.edge e hold).join hnehead ?_).join ?_ hnenext
      · exact fun heq => hdisjoint e.2 (snd_mem_of_mem_edges hold) (heq ▸ hfirstmem)
      · exact fun heq => hdisjoint e.1 (fst_mem_of_mem_edges hold) (heq ▸ hlastmem)
  · have hnodup := (List.nodup_cons.mp h'.nodup).2
    have hperm : (head :: (xs ++ ys)).Perm (head :: ys ++ xs) := List.perm_append_comm.cons head
    refine hperm.nodup_iff.mpr (List.nodup_append.mpr ⟨h.nodup, hnodup, ?_⟩)
    rintro x hx y hy rfl
    exact hdisjoint x hx (List.mem_cons_of_mem list hy)

end

end LinkedRing
