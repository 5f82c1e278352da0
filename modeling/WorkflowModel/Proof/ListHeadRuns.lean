import WorkflowModel.Kernel.ListHead

/-!
# The lists in memory

Every list is a ring, and no address is in two of them. An operation writes to addresses of the lists that it is
about and to the node that it adds, so it leaves the other lists as they are, and whatever was done before, a list in
memory has the nodes that it should have, in their order.
-/

namespace WorkflowModel.Kernel.ListHead

open LinkedRing

variable {α : Type*} {m m' : Links α} {lists : Lists α} {list head node entry : α} {nodes xs ys : List α}

structure Represents (m : Links α) (lists : Lists α) : Prop where
  ring : ∀ head nodes, lists head = some nodes → Ring m head nodes
  disjoint : ∀ head nodes head' nodes', lists head = some nodes → lists head' = some nodes' → head' ≠ head →
    ∀ x ∈ head :: nodes, x ∉ head' :: nodes'

theorem represents_none (m : Links α) : Represents m (fun _ => none) := by
  constructor
  · intro _ _ h
    cases h
  · intro _ _ _ _ h
    cases h

theorem Represents.eq_of_mem (h : Represents m lists) {head' : α} {nodes' : List α} {x : α}
    (hlist : lists head = some nodes) (hlist' : lists head' = some nodes') (hx : x ∈ head :: nodes)
    (hx' : x ∈ head' :: nodes') : head' = head := by
  by_contra hne
  exact h.disjoint head nodes head' nodes' hlist hlist' hne x hx hx'

theorem Represents.not_head (h : Represents m lists) (hlist : lists head = some nodes) (hnode : node ∈ nodes) :
    lists node = none := by
  cases hnone : lists node with
  | none => rfl
  | some nodes' =>
      obtain rfl := h.eq_of_mem hlist hnone (List.mem_cons_of_mem _ hnode) List.mem_cons_self
      exact absurd hnode (List.nodup_cons.mp (h.ring node nodes hlist).nodup).1

theorem Represents.head_not_mem (h : Represents m lists) {list : α} (hhead : lists list = some xs)
    (hlist : lists head = some nodes) : list ∉ nodes := by
  intro hmem
  rw [h.not_head hlist hmem] at hhead
  cases hhead

theorem free_not_mem (hfree : lists.Free node) (hlist : lists head = some nodes) : node ∉ head :: nodes := by
  intro hmem
  obtain rfl | hmem := List.mem_cons.mp hmem
  · rw [hfree.1] at hlist
    cases hlist
  · exact hfree.2 head nodes hlist hmem

theorem Represents.next_of_append (h : Represents m lists) {p q : α} {after : List α}
    (hlist : lists head = some (xs ++ p :: ys)) (hq : ys ++ [head] = q :: after) : m.next p = q := by
  have hedge : head :: (xs ++ p :: ys ++ [head]) = (head :: xs) ++ p :: q :: after := by
    rw [List.append_assoc, List.cons_append, hq]
    rfl
  exact ((h.ring head _ hlist).edge_of_append hedge).1

theorem Represents.next_head (h : Represents m lists) {q : α} {after : List α} (hlist : lists head = some ys)
    (hq : ys ++ [head] = q :: after) : m.next head = q := by
  have hedge : head :: (ys ++ [head]) = [] ++ head :: q :: after := by rw [hq]; rfl
  exact ((h.ring head _ hlist).edge_of_append hedge).1

theorem Represents.ne_head (h : Represents m lists) (hlist : lists head = some nodes) {p : α} (hp : p ∈ nodes) :
    p ≠ head := by
  rintro rfl
  exact (List.nodup_cons.mp (h.ring p nodes hlist).nodup).1 hp

section

variable [DecidableEq α]

theorem put_self (lists : Lists α) (head : α) (nodes : List α) : lists.put head nodes head = some nodes :=
  Function.update_self ..

theorem put_of_ne (lists : Lists α) (nodes : List α) {head head' : α} (hne : head' ≠ head) :
    lists.put head nodes head' = lists head' :=
  Function.update_of_ne hne ..

theorem prepend_eq (hlist : lists head = some nodes) (xs : List α) :
    lists.prepend head xs = lists.put head (xs ++ nodes) := by
  rw [Lists.prepend, hlist, Option.getD_some]

theorem append_eq (hlist : lists head = some nodes) (xs : List α) :
    lists.append head xs = lists.put head (nodes ++ xs) := by
  rw [Lists.append, hlist, Option.getD_some]

/-- One list is changed, and the others are left alone. -/
theorem Represents.put (h : Represents m lists) (hring : Ring m' head nodes)
    (hothers : ∀ head' nodes', head' ≠ head → lists head' = some nodes' →
      Ring m' head' nodes' ∧ ∀ x ∈ head :: nodes, x ∉ head' :: nodes') : Represents m' (lists.put head nodes) := by
  constructor
  · intro head' nodes' hlist
    by_cases hhead : head' = head
    · subst hhead
      rw [put_self] at hlist
      exact Option.some.inj hlist ▸ hring
    · rw [put_of_ne _ _ hhead] at hlist
      exact (hothers head' nodes' hhead hlist).1
  · intro head₁ nodes₁ head₂ nodes₂ hlist₁ hlist₂ hne x hx hx'
    by_cases hhead₁ : head₁ = head
    · subst hhead₁
      rw [put_self] at hlist₁
      rw [put_of_ne _ _ hne] at hlist₂
      exact (hothers head₂ nodes₂ hne hlist₂).2 x (Option.some.inj hlist₁ ▸ hx) hx'
    · rw [put_of_ne _ _ hhead₁] at hlist₁
      by_cases hhead₂ : head₂ = head
      · subst hhead₂
        rw [put_self] at hlist₂
        exact (hothers head₁ nodes₁ hhead₁ hlist₁).2 x (Option.some.inj hlist₂ ▸ hx') hx
      · rw [put_of_ne _ _ hhead₂] at hlist₂
        exact h.disjoint head₁ nodes₁ head₂ nodes₂ hlist₁ hlist₂ hne x hx hx'

theorem initListHead_eq (m : Links α) (list : α) : initListHead m list = m.join list list := rfl

theorem addBetween_eq (m : Links α) (node prev next : α) :
    addBetween m node prev next = (m.join node next).join prev node := rfl

theorem delBetween_eq (m : Links α) (prev next : α) : delBetween m prev next = m.join prev next := rfl

theorem spliceBetween_eq (m : Links α) (list head : α) :
    spliceBetween m list head = (m.join head (m.next list)).join (m.prev list) (m.next head) := rfl

theorem Represents.init (h : Represents m lists) (hlist : ∀ head nodes, lists head = some nodes → list ∉ nodes) :
    Represents (initListHead m list) (lists.put list []) := by
  refine h.put (ring_join_self m list) fun head' nodes' hne hlist' => ?_
  have hnot : list ∉ head' :: nodes' := by
    intro hmem
    obtain rfl | hmem := List.mem_cons.mp hmem
    · exact hne rfl
    · exact hlist head' nodes' hlist' hmem
  rw [initListHead_eq]
  exact ⟨(h.ring head' nodes' hlist').join hnot hnot, fun x hx => List.mem_singleton.mp hx ▸ hnot⟩

/-- A free node is put between two neighbours of a list. -/
theorem Represents.insert {a b : α} {before after : List α} (h : Represents m lists)
    (hlist : lists head = some (xs ++ ys)) (hfree : lists.Free node) (ha : head :: xs = before ++ [a])
    (hb : ys ++ [head] = b :: after) : Represents (addBetween m node a b) (lists.put head (xs ++ node :: ys)) := by
  have hnot := free_not_mem hfree hlist
  refine h.put ((h.ring head _ hlist).insert hnot ha hb) fun head' nodes' hne hlist' => ?_
  have hdisjoint := h.disjoint head _ head' nodes' hlist hlist' hne
  have hnode := free_not_mem hfree hlist'
  have hamem : a ∈ head :: (xs ++ ys) :=
    List.mem_append_left ys (ha ▸ List.mem_append_right _ (List.mem_singleton_self a) : a ∈ head :: xs)
  have hbmem : b ∈ head :: (xs ++ ys) := by
    have hb' : b ∈ ys ++ [head] := hb ▸ List.mem_cons_self
    simp only [List.mem_append, List.mem_cons] at hb' ⊢
    tauto
  constructor
  · rw [addBetween_eq]
    exact ((h.ring head' nodes' hlist').join hnode (hdisjoint b hbmem)).join (hdisjoint a hamem) hnode
  · intro x hx
    have hx : x = node ∨ x ∈ head :: (xs ++ ys) := by
      simp only [List.mem_append, List.mem_cons] at hx ⊢
      tauto
    obtain rfl | hx := hx
    · exact hnode
    · exact hdisjoint x hx

theorem Represents.add (h : Represents m lists) (hlist : lists head = some nodes) (hfree : lists.Free node) :
    Represents (listAdd m node head) (lists.put head (node :: nodes)) := by
  obtain ⟨b, after, hb⟩ : ∃ b after, nodes ++ [head] = b :: after := List.exists_cons_of_ne_nil (by simp)
  have hring : head :: (nodes ++ [head]) = [] ++ head :: b :: after := by rw [hb]; rfl
  have hnext : m.next head = b := ((h.ring head nodes hlist).edge_of_append hring).1
  have hlist' : lists head = some ([] ++ nodes) := hlist
  have hfirst : [head] = [] ++ [head] := rfl
  rw [listAdd, hnext]
  exact h.insert hlist' hfree hfirst hb

theorem Represents.addTail (h : Represents m lists) (hlist : lists head = some nodes) (hfree : lists.Free node) :
    Represents (listAddTail m node head) (lists.put head (nodes ++ [node])) := by
  obtain ⟨before, a, ha⟩ : ∃ before a, head :: nodes = before ++ [a] :=
    ⟨_, _, (List.dropLast_append_getLast (List.cons_ne_nil head nodes)).symm⟩
  have hring : head :: (nodes ++ [head]) = before ++ a :: head :: [] := by
    rw [← List.cons_append, ha, List.append_assoc]
    rfl
  have hprev : m.prev head = a := ((h.ring head nodes hlist).edge_of_append hring).2
  have hlist' : lists head = some (nodes ++ []) := by rwa [List.append_nil]
  have hlast : [] ++ [head] = head :: [] := rfl
  rw [listAddTail, hprev]
  exact h.insert hlist' hfree ha hlast

/-- An entry is taken out, and is free after that. -/
theorem Represents.del (h : Represents m lists) (hlist : lists head = some nodes) (hentry : entry ∈ nodes) :
    Represents (listDel m entry) (lists.erase entry) ∧ (lists.erase entry).Free entry
      ∧ lists.erase entry head = some (nodes.erase entry) := by
  obtain ⟨xs, ys, rfl⟩ := List.append_of_mem hentry
  have hring := h.ring head _ hlist
  have hnot : entry ∉ xs ∧ entry ∉ ys := by
    have hnodup := List.perm_middle.nodup_iff.mp (List.nodup_cons.mp hring.nodup).2
    have hnot := (List.nodup_cons.mp hnodup).1
    exact ⟨fun hmem => hnot (List.mem_append_left _ hmem), fun hmem => hnot (List.mem_append_right _ hmem)⟩
  have herase : (xs ++ entry :: ys).erase entry = xs ++ ys := by
    rw [List.erase_append_right _ hnot.1, List.erase_cons_head]
  have hother : ∀ head' nodes', head' ≠ head → lists head' = some nodes' → entry ∉ head' :: nodes' :=
    fun head' nodes' hne hlist' => h.disjoint head _ head' nodes' hlist hlist' hne entry
      (List.mem_cons_of_mem _ hentry)
  have hput : lists.erase entry = lists.put head (xs ++ ys) := by
    funext head'
    by_cases hhead : head' = head
    · subst hhead
      rw [put_self, Lists.erase, hlist, Option.map_some, herase]
    · rw [put_of_ne _ _ hhead, Lists.erase]
      cases hlist' : lists head' with
      | none => rfl
      | some nodes' =>
          rw [Option.map_some, List.erase_of_not_mem fun hmem =>
            hother head' nodes' hhead hlist' (List.mem_cons_of_mem _ hmem)]
  obtain ⟨before, a, ha⟩ : ∃ before a, head :: xs = before ++ [a] :=
    ⟨_, _, (List.dropLast_append_getLast (List.cons_ne_nil head xs)).symm⟩
  obtain ⟨b, after, hb⟩ : ∃ b after, ys ++ [head] = b :: after := List.exists_cons_of_ne_nil (by simp)
  obtain ⟨hremoved, hprev, hnext⟩ := hring.remove ha hb
  refine ⟨?_, ?_, ?_⟩
  · rw [hput, listDel, hprev, hnext, delBetween_eq]
    refine h.put hremoved fun head' nodes' hne hlist' => ?_
    have hdisjoint := h.disjoint head _ head' nodes' hlist hlist' hne
    have hamem : a ∈ head :: (xs ++ entry :: ys) :=
      List.mem_append_left _ (ha ▸ List.mem_append_right _ (List.mem_singleton_self a) : a ∈ head :: xs)
    have hbmem : b ∈ head :: (xs ++ entry :: ys) := by
      have hb' : b ∈ ys ++ [head] := hb ▸ List.mem_cons_self
      simp only [List.mem_append, List.mem_cons] at hb' ⊢
      tauto
    refine ⟨(h.ring head' nodes' hlist').join (hdisjoint a hamem) (hdisjoint b hbmem), fun x hx => hdisjoint x ?_⟩
    simp only [List.mem_append, List.mem_cons] at hx ⊢
    tauto
  · constructor
    · rw [Lists.erase, h.not_head hlist hentry, Option.map_none]
    · intro head' nodes' hlist'
      rw [hput] at hlist'
      by_cases hhead : head' = head
      · subst hhead
        rw [put_self] at hlist'
        rw [← Option.some.inj hlist']
        exact fun hmem => (List.mem_append.mp hmem).elim hnot.1 hnot.2
      · rw [put_of_ne _ _ hhead] at hlist'
        exact fun hmem => hother head' nodes' hhead hlist' (List.mem_cons_of_mem _ hmem)
  · rw [hput, put_self, herase]

theorem Represents.listEmpty_iff (h : Represents m lists) (hlist : lists head = some nodes) :
    listEmpty m head = true ↔ nodes = [] := by
  have hring := h.ring head nodes hlist
  rw [listEmpty, decide_eq_true_iff]
  cases nodes with
  | nil => exact iff_of_true (hring.edge (head, head) List.mem_cons_self).1 rfl
  | cons n nodes =>
      refine iff_of_false ?_ (List.cons_ne_nil n nodes)
      rw [hring.next_head]
      rintro rfl
      exact (List.nodup_cons.mp hring.nodup).1 List.mem_cons_self

theorem Represents.forget (h : Represents m lists) (list : α) : Represents m (Function.update lists list none) := by
  have hold : ∀ head nodes, Function.update lists list none head = some nodes →
      head ≠ list ∧ lists head = some nodes := by
    intro head nodes hlist
    by_cases hhead : head = list
    · subst hhead
      rw [Function.update_self] at hlist
      cases hlist
    · rw [Function.update_of_ne hhead] at hlist
      exact ⟨hhead, hlist⟩
  constructor
  · exact fun head nodes hlist => h.ring head nodes (hold head nodes hlist).2
  · exact fun head nodes head' nodes' hlist hlist' =>
      h.disjoint head nodes head' nodes' (hold head nodes hlist).2 (hold head' nodes' hlist').2

theorem Represents.spliceBetween {list : α} (h : Represents m lists) (hlist : lists list = some xs)
    (hhead : lists head = some ys) (hne : list ≠ head) (hxs : xs ≠ []) :
    Represents (spliceBetween m list head) (Function.update (lists.put head (xs ++ ys)) list none) := by
  obtain ⟨first, after, hfirst⟩ := List.exists_cons_of_ne_nil hxs
  obtain ⟨before, last, hlast⟩ : ∃ before last, xs = before ++ [last] :=
    ⟨_, _, (List.dropLast_append_getLast hxs).symm⟩
  have hring := h.ring list xs hlist
  have hring' := h.ring head ys hhead
  have hnext : m.next list = first := by
    rw [hfirst] at hring
    exact hring.next_head
  have hprev : m.prev list = last := by
    have hedge : list :: (xs ++ [list]) = (list :: before) ++ last :: list :: [] := by
      rw [hlast, List.append_assoc]
      rfl
    exact (hring.edge_of_append hedge).2
  have hdisjoint := h.disjoint head ys list xs hhead hlist hne
  have hspliced := hring'.splice hring hdisjoint hfirst hlast
  have hmemnext : m.next head ∈ head :: ys := by
    cases ys with
    | nil => exact (hring'.edge (head, head) List.mem_cons_self).1 ▸ List.mem_cons_self
    | cons n ys => exact hring'.next_head ▸ List.mem_cons_of_mem head List.mem_cons_self
  have hmemfirst : first ∈ list :: xs := List.mem_cons_of_mem list (hfirst ▸ List.mem_cons_self)
  have hmemlast : last ∈ list :: xs := List.mem_cons_of_mem list (hlast ▸ List.mem_append_right _ List.mem_cons_self)
  rw [Lists.put, Function.update_comm hne.symm, spliceBetween_eq, hnext, hprev]
  refine (h.forget list).put hspliced fun head' nodes' hne' hlist' => ?_
  have hnelist : head' ≠ list := by
    rintro rfl
    rw [Function.update_self] at hlist'
    cases hlist'
  rw [Function.update_of_ne hnelist] at hlist'
  have houthead := h.disjoint head ys head' nodes' hhead hlist' hne'
  have houtlist := h.disjoint list xs head' nodes' hlist hlist' hnelist
  have hkeep := (h.ring head' nodes' hlist').join (houthead head List.mem_cons_self) (houtlist first hmemfirst)
  refine ⟨hkeep.join (houtlist last hmemlast) (houthead _ hmemnext), fun x hx => ?_⟩
  obtain rfl | hx := List.mem_cons.mp hx
  · exact houthead x List.mem_cons_self
  · obtain hx | hx := List.mem_append.mp hx
    · exact houtlist x (List.mem_cons_of_mem list hx)
    · exact houthead x (List.mem_cons_of_mem head hx)

theorem Represents.step (h : Represents m lists) {op : Op α} (hop : lists.Allowed op) :
    Represents (step m op) (lists.step op) := by
  cases op with
  | init list => exact h.init hop
  | add node head =>
      obtain ⟨hfree, hhead, -⟩ := hop
      obtain ⟨nodes, hlist⟩ := Option.ne_none_iff_exists'.mp hhead
      rw [Lists.step, prepend_eq hlist]
      exact h.add hlist hfree
  | addTail node head =>
      obtain ⟨hfree, hhead, -⟩ := hop
      obtain ⟨nodes, hlist⟩ := Option.ne_none_iff_exists'.mp hhead
      rw [Lists.step, append_eq hlist]
      exact h.addTail hlist hfree
  | del entry =>
      obtain ⟨head, nodes, hlist, hentry⟩ := hop
      exact (h.del hlist hentry).1
  | move node head =>
      obtain ⟨⟨head', nodes', hlist', hnode⟩, hhead⟩ := hop
      obtain ⟨nodes, hlist⟩ := Option.ne_none_iff_exists'.mp hhead
      obtain ⟨hdel, hfree, -⟩ := h.del hlist' hnode
      have herased : lists.erase node head = some (nodes.erase node) := by rw [Lists.erase, hlist, Option.map_some]
      rw [Lists.step, prepend_eq herased]
      exact hdel.add herased hfree
  | moveTail node head =>
      obtain ⟨⟨head', nodes', hlist', hnode⟩, hhead⟩ := hop
      obtain ⟨nodes, hlist⟩ := Option.ne_none_iff_exists'.mp hhead
      obtain ⟨hdel, hfree, -⟩ := h.del hlist' hnode
      have herased : lists.erase node head = some (nodes.erase node) := by rw [Lists.erase, hlist, Option.map_some]
      rw [Lists.step, append_eq herased]
      exact hdel.addTail herased hfree
  | splice list head =>
      obtain ⟨hlist, hhead, hne⟩ := hop
      obtain ⟨xs, hxs⟩ := Option.ne_none_iff_exists'.mp hlist
      obtain ⟨ys, hys⟩ := Option.ne_none_iff_exists'.mp hhead
      have hempty := h.listEmpty_iff hxs
      rw [Lists.step, ListHead.step, listSplice, hxs, Option.getD_some]
      by_cases hnil : xs = []
      · rw [if_neg (by rw [hempty.mpr hnil]; decide), if_pos (by rw [hnil])]
        exact h
      · rw [if_pos (by simpa using mt hempty.mp hnil), if_neg (by simpa using hnil), prepend_eq hys]
        exact h.spliceBetween hxs hys hne hnil
  | spliceInit list head =>
      obtain ⟨hlist, hhead, hne⟩ := hop
      obtain ⟨xs, hxs⟩ := Option.ne_none_iff_exists'.mp hlist
      obtain ⟨ys, hys⟩ := Option.ne_none_iff_exists'.mp hhead
      have hempty := h.listEmpty_iff hxs
      rw [Lists.step, ListHead.step, listSpliceInit, hxs, Option.getD_some, prepend_eq hys]
      by_cases hnil : xs = []
      · subst hnil
        rw [if_neg (by rw [hempty.mpr rfl]; decide), List.nil_append, Lists.put, Lists.put, ← hys,
          Function.update_eq_self, ← hxs, Function.update_eq_self]
        exact h
      · rw [if_pos (by simpa using mt hempty.mp hnil)]
        have hspliced := h.spliceBetween hxs hys hne hnil
        have hnot : ∀ head' nodes', Function.update (lists.put head (xs ++ ys)) list none head' = some nodes' →
            list ∉ nodes' := by
          intro head' nodes' hlist'
          by_cases hhead' : head' = list
          · rw [hhead', Function.update_self] at hlist'
            cases hlist'
          rw [Function.update_of_ne hhead'] at hlist'
          by_cases hhead'' : head' = head
          · rw [hhead'', put_self] at hlist'
            rw [← Option.some.inj hlist']
            exact fun hmem => (List.mem_append.mp hmem).elim (h.head_not_mem hxs hxs) (h.head_not_mem hxs hys)
          · rw [put_of_ne _ _ hhead''] at hlist'
            exact h.head_not_mem hxs hlist'
        have hinit := hspliced.init hnot
        rwa [Lists.put, Function.update_idem] at hinit

theorem forEachLoop_of_represents (h : Represents m lists) (hlist : lists head = some (xs ++ ys)) (fuel : Nat)
    (hfuel : ys.length ≤ fuel) {pos : α} {after : List α} (hpos : ys ++ [head] = pos :: after) :
    forEachLoop m head fuel pos = some ys := by
  induction ys generalizing xs fuel pos after with
  | nil =>
      obtain rfl : head = pos := (List.cons.inj hpos).1
      unfold forEachLoop
      rw [if_pos rfl]
  | cons p ys ih =>
      obtain rfl : p = pos := (List.cons.inj hpos).1
      obtain ⟨q, after', hq⟩ : ∃ q after', ys ++ [head] = q :: after' := List.exists_cons_of_ne_nil (by simp)
      obtain ⟨fuel, rfl⟩ : ∃ f, fuel = f + 1 := ⟨fuel - 1, by rw [List.length_cons] at hfuel; omega⟩
      have hne := h.ne_head hlist (List.mem_append_right xs List.mem_cons_self)
      have hlist' : lists head = some (xs ++ [p] ++ ys) := by simpa using hlist
      have hrest := ih hlist' fuel (by simpa using hfuel) hq
      unfold forEachLoop
      rw [if_neg hne, h.next_of_append hlist hq]
      change (forEachLoop m head fuel q).map _ = _
      rw [hrest]
      rfl

theorem forEach_of_represents (h : Represents m lists) (hlist : lists head = some nodes) (fuel : Nat)
    (hfuel : nodes.length ≤ fuel) : forEach m head fuel = some nodes := by
  obtain ⟨q, after, hq⟩ : ∃ q after, nodes ++ [head] = q :: after := List.exists_cons_of_ne_nil (by simp)
  have hlist' : lists head = some ([] ++ nodes) := hlist
  rw [forEach, h.next_head hlist hq]
  exact forEachLoop_of_represents h hlist' fuel hfuel hq

/-- One round of a safe loop: the list keeps the rest, and what comes before the rest loses the position if the
body takes it out. -/
theorem Represents.body (h : Represents m lists) {p : α} {fate : α → Fate α}
    (hlist : lists head = some (xs ++ p :: ys))
    (hfate : ∀ h, fate p = .moveTail h → h ≠ head ∧ lists h ≠ none) :
    Represents (Fate.body fate p m) (lists.loop fate [p]) ∧ (∀ h, lists h ≠ none → lists.loop fate [p] h ≠ none)
      ∧ lists.loop fate [p] head = some ((if fate p = .keep then xs ++ [p] else xs) ++ ys) := by
  have hmem : p ∈ xs ++ p :: ys := List.mem_append_right xs List.mem_cons_self
  have hlive : ∀ h, lists h ≠ none → lists.erase p h ≠ none := by
    intro h hh
    obtain ⟨nodes, hnodes⟩ := Option.ne_none_iff_exists'.mp hh
    simp [Lists.erase, hnodes]
  have hnodup := List.perm_middle.nodup_iff.mp (List.nodup_cons.mp (h.ring head _ hlist).nodup).2
  have herase : (xs ++ p :: ys).erase p = xs ++ ys := by
    have hnot : p ∉ xs := fun hmem => (List.nodup_cons.mp hnodup).1 (List.mem_append_left _ hmem)
    rw [List.erase_append_right _ hnot, List.erase_cons_head]
  obtain ⟨hdel, hfree, hrest⟩ := h.del hlist hmem
  simp only [Lists.loop, List.foldl_cons, List.foldl_nil, Fate.body]
  cases hp : fate p with
  | keep => exact ⟨h, fun _ => id, by simp [hlist]⟩
  | del => exact ⟨hdel, hlive, by simpa [Lists.step, herase] using hrest⟩
  | moveTail h' =>
      obtain ⟨hne, hhead⟩ := hfate h' hp
      obtain ⟨nodes, hnodes⟩ := Option.ne_none_iff_exists'.mp (hlive h' hhead)
      simp only [Lists.step]
      rw [append_eq hnodes]
      refine ⟨hdel.addTail hnodes hfree, ?_, ?_⟩
      · intro h'' hh
        by_cases heq : h'' = h'
        · rw [heq, put_self]
          exact Option.some_ne_none _
        · rw [put_of_ne _ _ heq]
          exact hlive h'' hh
      · rw [put_of_ne _ _ hne.symm, hrest, herase, if_neg (by simp)]

theorem forEachSafeLoop_of_represents {fate : α → Fate α} (h : Represents m lists)
    (hlist : lists head = some (xs ++ ys)) (hfate : ∀ p ∈ ys, ∀ h, fate p = .moveTail h → h ≠ head ∧ lists h ≠ none)
    (fuel : Nat) (hfuel : ys.length ≤ fuel) {pos : α} {after : List α} (hpos : ys ++ [head] = pos :: after) :
    ∃ m', forEachSafeLoop (Fate.body fate) head fuel m pos (m.next pos) = some (m', ys)
      ∧ Represents m' (lists.loop fate ys)
      ∧ lists.loop fate ys head = some (xs ++ ys.filter fun p => fate p = .keep) := by
  induction ys generalizing xs m lists fuel pos after with
  | nil =>
      obtain rfl : head = pos := (List.cons.inj hpos).1
      refine ⟨m, ?_, h, hlist⟩
      unfold forEachSafeLoop
      rw [if_pos rfl]
  | cons p ys ih =>
      obtain rfl : p = pos := (List.cons.inj hpos).1
      obtain ⟨q, after', hq⟩ : ∃ q after', ys ++ [head] = q :: after' := List.exists_cons_of_ne_nil (by simp)
      obtain ⟨fuel, rfl⟩ : ∃ f, fuel = f + 1 := ⟨fuel - 1, by rw [List.length_cons] at hfuel; omega⟩
      have hne := h.ne_head hlist (List.mem_append_right xs List.mem_cons_self)
      obtain ⟨hbody, hlive, hrest⟩ := h.body hlist (hfate p List.mem_cons_self)
      obtain ⟨m', hloop, hrep, hhead⟩ := ih hbody hrest
        (fun p' hp' h' hfate' => ⟨(hfate p' (List.mem_cons_of_mem p hp') h' hfate').1,
          hlive h' (hfate p' (List.mem_cons_of_mem p hp') h' hfate').2⟩) fuel (by simpa using hfuel) hq
      refine ⟨m', ?_, hrep, ?_⟩
      · unfold forEachSafeLoop
        rw [if_neg hne, h.next_of_append hlist hq]
        change (forEachSafeLoop (Fate.body fate) head fuel (Fate.body fate p m) q
          ((Fate.body fate p m).next q)).map _ = _
        rw [hloop]
        rfl
      · change (lists.loop fate [p]).loop fate ys head = _
        rw [hhead]
        by_cases hkeep : fate p = .keep <;> simp [hkeep]

theorem Represents.run {ops : List (Op α)} (h : Represents m lists) (hops : lists.AllowedRun ops) :
    Represents (run m ops) (lists.run ops) := by
  induction ops generalizing m lists with
  | nil => exact h
  | cons op ops ih => exact ih (h.step hops.1) hops.2

/-- Whatever was done to the lists in memory, by calls that were allowed, a walk over one of them goes through the
nodes that it should have, in their order, and `list_empty` says if there are none. -/
theorem forEach_of_run (m : Links α) (ops : List (Op α)) (hops : Lists.AllowedRun (fun _ => none) ops)
    (hlist : Lists.run (fun _ => none) ops head = some nodes) :
    (∀ fuel, nodes.length ≤ fuel → forEach (run m ops) head fuel = some nodes)
      ∧ (listEmpty (run m ops) head = true ↔ nodes = []) := by
  have h := (represents_none m).run hops
  exact ⟨forEach_of_represents h hlist, h.listEmpty_iff hlist⟩

/-- A safe loop goes once through the nodes that the list had at its start, whatever the body does with each of them,
and leaves the list with the ones that the body kept; all lists are again what they should be. -/
theorem forEachSafe_of_run (m : Links α) (ops : List (Op α)) (hops : Lists.AllowedRun (fun _ => none) ops)
    (hlist : Lists.run (fun _ => none) ops head = some nodes) (fate : α → Fate α)
    (hfate : ∀ p ∈ nodes, ∀ h, fate p = .moveTail h → h ≠ head ∧ Lists.run (fun _ => none) ops h ≠ none) (fuel : Nat)
    (hfuel : nodes.length ≤ fuel) :
    ∃ m', forEachSafe (Fate.body fate) (run m ops) head fuel = some (m', nodes)
      ∧ (Lists.run (fun _ => none) ops).loop fate nodes head = some (nodes.filter fun p => fate p = .keep)
      ∧ ∀ head' nodes', (Lists.run (fun _ => none) ops).loop fate nodes head' = some nodes' →
        ∀ fuel, nodes'.length ≤ fuel → forEach m' head' fuel = some nodes' := by
  have h := (represents_none m).run hops
  obtain ⟨q, after, hq⟩ : ∃ q after, nodes ++ [head] = q :: after := List.exists_cons_of_ne_nil (by simp)
  have hlist' : Lists.run (fun _ => none) ops head = some ([] ++ nodes) := hlist
  obtain ⟨m', hloop, hrep, hhead⟩ := forEachSafeLoop_of_represents h hlist' hfate fuel hfuel hq
  refine ⟨m', ?_, hhead, fun head' nodes' hlist'' => forEach_of_represents hrep hlist''⟩
  simp only [forEachSafe]
  rw [h.next_head hlist hq]
  exact hloop

end

def twoEntries : List (Op Nat) := [.init 0, .addTail 1 0, .add 2 0]

theorem allowedRun_twoEntries : Lists.AllowedRun (fun _ => none) twoEntries := by
  have hlist : ∀ nodes head nodes', Lists.put (fun _ => none) 0 nodes head = some nodes' → nodes' = nodes := by
    intro nodes head nodes' hlist
    by_cases hhead : head = 0
    · rw [hhead, put_self] at hlist
      exact (Option.some.inj hlist).symm
    · rw [put_of_ne _ _ hhead] at hlist
      cases hlist
  refine ⟨by simp [Lists.Allowed], ⟨⟨rfl, fun head nodes h => ?_⟩, by simp [Lists.step, Lists.put], by decide⟩,
    ⟨⟨rfl, fun head nodes h => ?_⟩, by simp [Lists.step, Lists.append, Lists.put], by decide⟩, trivial⟩
  · simp [hlist _ head nodes h]
  · have heq : (Lists.step (fun _ => none) (.init 0)).step (.addTail 1 0) = Lists.put (fun _ => none) 0 [1] := by
      simp [Lists.step, Lists.append, Lists.put]
    rw [heq] at h
    simp [hlist _ head nodes h]

def noPointers : Links Nat := { next := fun _ => 0, prev := fun _ => 0 }

theorem forEach_of_run_twoEntries : forEach (run noPointers twoEntries) 0 2 = some [2, 1] :=
  (forEach_of_run noPointers twoEntries allowedRun_twoEntries rfl).1 2 (Nat.le_refl 2)

theorem forEachSafe_of_run_twoEntries : ∃ m',
    forEachSafe (Fate.body fun p => if p = 2 then .del else .keep) (run noPointers twoEntries) 0 2
      = some (m', [2, 1]) := by
  have hlist : Lists.run (fun _ => none) twoEntries 0 = some [2, 1] := rfl
  have hfate : ∀ p ∈ [2, 1], ∀ h, (if p = 2 then Fate.del else Fate.keep) = Fate.moveTail h →
      h ≠ 0 ∧ Lists.run (fun _ => none) twoEntries h ≠ none := by
    intro p _ h
    split <;> simp
  obtain ⟨m', hloop, -⟩ := forEachSafe_of_run noPointers twoEntries allowedRun_twoEntries hlist _ hfate 2 (Nat.le_refl 2)
  exact ⟨m', hloop⟩

end WorkflowModel.Kernel.ListHead
