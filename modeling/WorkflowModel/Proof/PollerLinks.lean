import WorkflowModel.Kernel.PollerThread
import Mathlib.Data.List.Basic

/-!
# The structures that hold the nodes

The tree and the two lists hold every node that is linked exactly once, the flag of a node tells where it
is, and `tree_first` is the first node of the tree. Linking and unlinking touch nothing but these
structures, the flag and the timer.
-/

namespace WorkflowModel.Kernel.Poller

/-- `q` differs from `p` in the structures, the timer, the flags `in_rbtree` and the deadlines only. -/
structure OnlyLinks (p q : Poller) : Prop where
  nodes : q.nodes = p.nodes
  interest : q.interest = p.interest
  count : q.count = p.count
  pipe : q.pipe = p.pipe
  log : q.log = p.log
  stopped : q.stopped = p.stopped
  maxOpenFiles : q.maxOpenFiles = p.maxOpenFiles
  fd : ∀ n, (q.node n).fd = (p.node n).fd
  event : ∀ n, (q.node n).event = (p.node n).event
  operation : ∀ n, (q.node n).operation = (p.node n).operation
  removed : ∀ n, (q.node n).removed = (p.node n).removed

namespace OnlyLinks

variable {p q r : Poller}

theorem refl (p : Poller) : OnlyLinks p p := by
  constructor <;> simp

theorem trans (h : OnlyLinks p q) (h' : OnlyLinks q r) : OnlyLinks p r where
  nodes := h'.nodes.trans h.nodes
  interest := h'.interest.trans h.interest
  count := h'.count.trans h.count
  pipe := h'.pipe.trans h.pipe
  log := h'.log.trans h.log
  stopped := h'.stopped.trans h.stopped
  maxOpenFiles := h'.maxOpenFiles.trans h.maxOpenFiles
  fd n := (h'.fd n).trans (h.fd n)
  event n := (h'.event n).trans (h.event n)
  operation n := (h'.operation n).trans (h.operation n)
  removed n := (h'.removed n).trans (h.removed n)

end OnlyLinks

@[simp]
theorem setNode_node_self (n : Nat) (node : PollerNode) (p : Poller) :
    (p.setNode n node).node n = node := Function.update_self ..

theorem setNode_node_of_ne {n j : Nat} (hj : j ≠ n) (node : PollerNode) (p : Poller) :
    (p.setNode n node).node j = p.node j := Function.update_of_ne hj ..

theorem setNode_field {α : Type} (f : PollerNode → α) {n : Nat} {node : PollerNode} {p : Poller}
    (h : f node = f (p.node n)) (j : Nat) : f ((p.setNode n node).node j) = f (p.node j) := by
  by_cases hj : j = n
  · rw [hj, setNode_node_self, h]
  · rw [setNode_node_of_ne hj]

theorem onlyLinks_setNode {n : Nat} {node : PollerNode} {p : Poller} (hfd : node.fd = (p.node n).fd)
    (hevent : node.event = (p.node n).event) (hoperation : node.operation = (p.node n).operation)
    (hremoved : node.removed = (p.node n).removed) : OnlyLinks p (p.setNode n node) where
  nodes := rfl
  interest := rfl
  count := rfl
  pipe := rfl
  log := rfl
  stopped := rfl
  maxOpenFiles := rfl
  fd := setNode_field PollerNode.fd hfd
  event := setNode_field PollerNode.event hevent
  operation := setNode_field PollerNode.operation hoperation
  removed := setNode_field PollerNode.removed hremoved

theorem onlyLinks_treeInsert (n : Nat) (p : Poller) : OnlyLinks p (p.treeInsert n) := by
  have h : OnlyLinks p (p.setNode n { p.node n with inRbtree := true }) :=
    onlyLinks_setNode rfl rfl rfl rfl
  exact ⟨h.nodes, h.interest, h.count, h.pipe, h.log, h.stopped, h.maxOpenFiles, h.fd, h.event,
    h.operation, h.removed⟩

theorem onlyLinks_treeErase (n : Nat) (p : Poller) : OnlyLinks p (p.treeErase n) := by
  have h : OnlyLinks p (p.setNode n { p.node n with inRbtree := false }) :=
    onlyLinks_setNode rfl rfl rfl rfl
  exact ⟨h.nodes, h.interest, h.count, h.pipe, h.log, h.stopped, h.maxOpenFiles, h.fd, h.event,
    h.operation, h.removed⟩

theorem onlyLinks_armBefore (n : Nat) (other : Option Nat) (p : Poller) :
    OnlyLinks p (p.armBefore n other) := by
  unfold armBefore
  cases other with
  | none => constructor <;> simp
  | some other =>
      simp only []
      split_ifs <;> constructor <;> simp

/-- Where `insertNode` links the node, before it looks at the timer. -/
def linkTimed (n : Nat) (p : Poller) : Poller :=
  let inOrder :=
    match p.timeoList.getLast? with
    | none => true
    | some last => decide (0 ≤ timeoutCmp (p.node n).timeout (p.node last).timeout)
  if inOrder then { p with timeoList := p.timeoList ++ [n] } else p.treeInsert n

theorem insertNode_eq (n : Nat) (p : Poller) :
    p.insertNode n =
      if (p.linkTimed n).timeoList.head? = some n then
        (p.linkTimed n).armBefore n (p.linkTimed n).treeFirst
      else if (p.linkTimed n).treeFirst = some n then
        (p.linkTimed n).armBefore n (p.linkTimed n).timeoList.head?
      else
        p.linkTimed n := rfl

theorem onlyLinks_linkTimed (n : Nat) (p : Poller) : OnlyLinks p (p.linkTimed n) := by
  unfold linkTimed
  generalize (match p.timeoList.getLast? with
    | none => true
    | some last => decide (0 ≤ timeoutCmp (p.node n).timeout (p.node last).timeout)) = inOrder
  cases inOrder
  · exact onlyLinks_treeInsert n p
  · constructor <;> simp

theorem onlyLinks_insertNode (n : Nat) (p : Poller) : OnlyLinks p (p.insertNode n) := by
  have h := onlyLinks_linkTimed n p
  rw [insertNode_eq]
  split_ifs
  · exact h.trans (onlyLinks_armBefore n _ _)
  · exact h.trans (onlyLinks_armBefore n _ _)
  · exact h

theorem onlyLinks_place (n : Nat) (timed : Bool) (p : Poller) : OnlyLinks p (p.place n timed) := by
  unfold place
  split_ifs
  · exact onlyLinks_insertNode n p
  · constructor <;> simp

theorem onlyLinks_unlink (n : Nat) (p : Poller) : OnlyLinks p (p.unlink n) := by
  unfold unlink
  split_ifs
  · exact onlyLinks_treeErase n p
  · constructor <;> simp

theorem setTimer_eq (p : Poller) : ∃ timer, p.setTimer = { p with timer := timer } := by
  unfold setTimer
  simp only []
  split <;> exact ⟨_, rfl⟩

theorem onlyLinks_setTimer (p : Poller) : OnlyLinks p p.setTimer := by
  obtain ⟨timer, htimer⟩ := setTimer_eq p
  rw [htimer]
  constructor <;> simp

def linked (p : Poller) : List Nat := p.timeoTree ++ (p.timeoList ++ p.noTimeoList)

structure Links (p : Poller) : Prop where
  nodup : p.linked.Nodup
  inTree : ∀ n ∈ p.timeoTree, (p.node n).inRbtree = true
  inLists : ∀ n ∈ p.timeoList ++ p.noTimeoList, (p.node n).inRbtree = false
  first : p.treeFirst = p.timeoTree.head?

theorem Links.setNode {p : Poller} (h : Links p) {n : Nat} {node : PollerNode}
    (hflag : node.inRbtree = (p.node n).inRbtree) : Links (p.setNode n node) := by
  refine ⟨h.nodup, ?_, ?_, h.first⟩
  · intro j hj
    rw [setNode_field PollerNode.inRbtree hflag]
    exact h.inTree j hj
  · intro j hj
    rw [setNode_field PollerNode.inRbtree hflag]
    exact h.inLists j hj

section Insert

variable {p : Poller} {n : Nat}

theorem treeInsert_timeoTree (p : Poller) (n : Nat) :
    ∃ before after, p.timeoTree = before ++ after ∧ (p.treeInsert n).timeoTree = before ++ n :: after
      ∧ (p.treeInsert n).treeFirst = if before = [] then some n else p.treeFirst := by
  refine ⟨_, _, ?_, rfl, rfl⟩
  exact (List.takeWhile_append_dropWhile).symm

theorem treeInsert_node_of_ne (p : Poller) {j : Nat} (hj : j ≠ n) :
    (p.treeInsert n).node j = p.node j := Function.update_of_ne hj ..

theorem treeInsert_inRbtree (p : Poller) (n : Nat) : ((p.treeInsert n).node n).inRbtree = true := by
  change ((p.setNode n { p.node n with inRbtree := true }).node n).inRbtree = true
  rw [setNode_node_self]

theorem Links.treeInsert (h : Links p) (hn : n ∉ p.linked) :
    Links (p.treeInsert n) ∧ (p.treeInsert n).linked.Perm (n :: p.linked) := by
  obtain ⟨before, after, hsplit, htree, hfirst⟩ := treeInsert_timeoTree p n
  have hperm : (p.treeInsert n).linked.Perm (n :: p.linked) := by
    change ((p.treeInsert n).timeoTree ++ (p.timeoList ++ p.noTimeoList)).Perm _
    rw [htree, linked, hsplit]
    simp only [List.append_assoc, List.cons_append]
    exact List.perm_middle
  have hne : ∀ j ∈ p.linked, j ≠ n := fun j hj heq => hn (heq ▸ hj)
  refine ⟨⟨?_, ?_, ?_, ?_⟩, hperm⟩
  · exact hperm.nodup_iff.2 (List.nodup_cons.2 ⟨hn, h.nodup⟩)
  · intro j hj
    by_cases hjn : j = n
    · rw [hjn]
      exact treeInsert_inRbtree p n
    · rw [treeInsert_node_of_ne p hjn]
      apply h.inTree
      rw [htree] at hj
      rw [hsplit]
      simpa [hjn] using hj
  · intro j hj
    rw [treeInsert_node_of_ne p (hne j (List.mem_append_right _ hj))]
    exact h.inLists j hj
  · rw [hfirst, htree]
    cases before with
    | nil => rfl
    | cons first rest =>
        rw [h.first, hsplit]
        simp

theorem Links.append (h : Links p) (hn : n ∉ p.linked) (hflag : (p.node n).inRbtree = false)
    {timeoList noTimeoList : List Nat}
    (hlists : (timeoList ++ noTimeoList).Perm (n :: (p.timeoList ++ p.noTimeoList))) :
    Links { p with timeoList := timeoList, noTimeoList := noTimeoList }
      ∧ ({ p with timeoList := timeoList, noTimeoList := noTimeoList } : Poller).linked.Perm
        (n :: p.linked) := by
  have hperm : ({ p with timeoList := timeoList, noTimeoList := noTimeoList } : Poller).linked.Perm
      (n :: p.linked) := by
    simp only [linked]
    exact (hlists.append_left p.timeoTree).trans List.perm_middle
  refine ⟨⟨?_, h.inTree, ?_, h.first⟩, hperm⟩
  · exact hperm.nodup_iff.2 (List.nodup_cons.2 ⟨hn, h.nodup⟩)
  · intro j hj
    obtain rfl | hj := List.mem_cons.1 (hlists.mem_iff.1 hj)
    · exact hflag
    · exact h.inLists j hj

theorem Links.linkTimed (h : Links p) (hn : n ∉ p.linked) (hflag : (p.node n).inRbtree = false) :
    Links (p.linkTimed n) ∧ (p.linkTimed n).linked.Perm (n :: p.linked) := by
  unfold Poller.linkTimed
  generalize (match p.timeoList.getLast? with
    | none => true
    | some last => decide (0 ≤ timeoutCmp (p.node n).timeout (p.node last).timeout)) = inOrder
  cases inOrder
  · exact h.treeInsert hn
  · apply h.append hn hflag
    rw [List.append_assoc]
    exact List.perm_middle

theorem Links.armBefore (h : Links p) (other : Option Nat) :
    Links (p.armBefore n other) ∧ (p.armBefore n other).linked = p.linked := by
  have htimer : ∀ timer, Links { p with timer := timer } :=
    fun _ => ⟨h.nodup, h.inTree, h.inLists, h.first⟩
  unfold Poller.armBefore
  cases other with
  | none => exact ⟨htimer _, rfl⟩
  | some other =>
      simp only []
      split_ifs
      · exact ⟨htimer _, rfl⟩
      · exact ⟨h, rfl⟩

theorem Links.insertNode (h : Links p) (hn : n ∉ p.linked) (hflag : (p.node n).inRbtree = false) :
    Links (p.insertNode n) ∧ (p.insertNode n).linked.Perm (n :: p.linked) := by
  obtain ⟨hlinks, hperm⟩ := h.linkTimed hn hflag
  rw [insertNode_eq]
  split_ifs
  · obtain ⟨harmed, heq⟩ := hlinks.armBefore (n := n) (p.linkTimed n).treeFirst
    exact ⟨harmed, heq ▸ hperm⟩
  · obtain ⟨harmed, heq⟩ := hlinks.armBefore (n := n) (p.linkTimed n).timeoList.head?
    exact ⟨harmed, heq ▸ hperm⟩
  · exact ⟨hlinks, hperm⟩

theorem Links.place (h : Links p) (hn : n ∉ p.linked) (hflag : (p.node n).inRbtree = false)
    (timed : Bool) : Links (p.place n timed) ∧ (p.place n timed).linked.Perm (n :: p.linked) := by
  unfold Poller.place
  split_ifs
  · exact h.insertNode hn hflag
  · apply h.append hn hflag
    rw [← List.append_assoc]
    exact List.perm_append_singleton n _

end Insert

section Unlink

variable {p : Poller} {n : Nat}

theorem head?_erase (n : Nat) (tree : List Nat) :
    (tree.erase n).head? = if tree.head? = some n then rbNext n tree else tree.head? := by
  cases tree with
  | nil => simp
  | cons first rest =>
      by_cases hfirst : first = n
      · simp [hfirst, rbNext]
      · simp [hfirst]

theorem Links.treeErase (h : Links p) (hn : n ∈ p.timeoTree) :
    Links (p.treeErase n) ∧ p.linked.Perm (n :: (p.treeErase n).linked) := by
  have hperm : p.linked.Perm (n :: (p.treeErase n).linked) :=
    (List.perm_cons_erase hn).append_right (p.timeoList ++ p.noTimeoList)
  have hnodup := List.nodup_cons.1 (hperm.nodup_iff.1 h.nodup)
  have hnode : ∀ j ∈ (p.treeErase n).linked, (p.treeErase n).node j = p.node j := by
    intro j hj
    refine setNode_node_of_ne ?_ _ p
    rintro rfl
    exact hnodup.1 hj
  refine ⟨⟨hnodup.2, ?_, ?_, ?_⟩, hperm⟩
  · intro j hj
    rw [hnode j (List.mem_append_left _ hj)]
    exact h.inTree j (List.mem_of_mem_erase hj)
  · intro j hj
    rw [hnode j (List.mem_append_right _ hj)]
    exact h.inLists j hj
  · change (if p.treeFirst = some n then rbNext n p.timeoTree else p.treeFirst)
      = (p.timeoTree.erase n).head?
    rw [head?_erase, h.first]

theorem treeErase_inRbtree (p : Poller) (n : Nat) : ((p.treeErase n).node n).inRbtree = false := by
  change ((p.setNode n { p.node n with inRbtree := false }).node n).inRbtree = false
  rw [setNode_node_self]

theorem Links.unlink (h : Links p) (hn : n ∈ p.linked) :
    Links (p.unlink n) ∧ p.linked.Perm (n :: (p.unlink n).linked)
      ∧ ((p.unlink n).node n).inRbtree = false := by
  unfold Poller.unlink
  split_ifs with hflag
  · have htree : n ∈ p.timeoTree := by
      obtain htree | hlists := List.mem_append.1 hn
      · exact htree
      · rw [h.inLists n hlists] at hflag
        cases hflag
    obtain ⟨hlinks, hperm⟩ := h.treeErase htree
    exact ⟨hlinks, hperm, treeErase_inRbtree p n⟩
  · have hlists : n ∈ p.timeoList ++ p.noTimeoList := by
      obtain htree | hlists := List.mem_append.1 hn
      · exact absurd (h.inTree n htree) hflag
      · exact hlists
    have hnodup : (p.timeoList ++ p.noTimeoList).Nodup := (List.nodup_append.1 h.nodup).2.1
    -- the node is in one of the two lists only, so erasing it from both is erasing it once
    have herase : (p.timeoList ++ p.noTimeoList).erase n
        = p.timeoList.erase n ++ p.noTimeoList.erase n := by
      by_cases htimed : n ∈ p.timeoList
      · have hother : n ∉ p.noTimeoList :=
          fun hmem => List.disjoint_of_nodup_append hnodup htimed hmem
        rw [List.erase_append_left _ htimed, List.erase_of_not_mem hother]
      · rw [List.erase_append_right _ htimed, List.erase_of_not_mem htimed]
    have hperm : p.linked.Perm
        (n :: (p.timeoTree ++ (p.timeoList.erase n ++ p.noTimeoList.erase n))) := by
      rw [← herase]
      calc
        (p.timeoTree ++ (p.timeoList ++ p.noTimeoList)).Perm
            (p.timeoTree ++ n :: (p.timeoList ++ p.noTimeoList).erase n) :=
          (List.perm_cons_erase hlists).append_left p.timeoTree
        List.Perm _ (n :: (p.timeoTree ++ (p.timeoList ++ p.noTimeoList).erase n)) := List.perm_middle
    refine ⟨⟨?_, h.inTree, ?_, h.first⟩, hperm, by simpa using hflag⟩
    · exact (List.nodup_cons.1 (hperm.nodup_iff.1 h.nodup)).2
    · intro j hj
      apply h.inLists
      rw [← herase] at hj
      exact List.mem_of_mem_erase hj

end Unlink

/-- The node `n` is no longer linked and its descriptor is forgotten. Nothing else has changed. -/
structure Dropped (p q : Poller) (n : Nat) : Prop where
  links : Links q
  linked : p.linked.Perm (n :: q.linked)
  nodes : q.nodes = (p.forget (p.node n).fd).nodes
  interest : q.interest = (p.forget (p.node n).fd).interest
  count : q.count = p.count
  pipe : q.pipe = p.pipe
  log : q.log = p.log
  stopped : q.stopped = p.stopped
  maxOpenFiles : q.maxOpenFiles = p.maxOpenFiles
  fd : ∀ j, (q.node j).fd = (p.node j).fd
  event : ∀ j, (q.node j).event = (p.node j).event
  operation : ∀ j, (q.node j).operation = (p.node j).operation
  removed : ∀ j, (q.node j).removed = (p.node j).removed

inductive DroppedAll : Poller → List Nat → Poller → Prop where
  | nil {p : Poller} : DroppedAll p [] p
  | cons {p q r : Poller} {n : Nat} {rest : List Nat} (first : Dropped p q n)
      (others : DroppedAll q rest r) : DroppedAll p (n :: rest) r

theorem DroppedAll.append {p q r : Poller} {ns ms : List Nat} (h : DroppedAll p ns q)
    (h' : DroppedAll q ms r) : DroppedAll p (ns ++ ms) r := by
  induction h with
  | nil => exact h'
  | cons first _ ih => exact .cons first (ih h')

theorem DroppedAll.links {p q : Poller} {ns : List Nat} (h : DroppedAll p ns q) (hp : Links p) :
    Links q := by
  induction h with
  | nil => exact hp
  | cons first _ ih => exact ih first.links

section Dropped

variable {p : Poller} {n : Nat}

theorem Links.dropped (h : Links p) (hn : n ∈ p.linked) (hfd : 0 ≤ (p.node n).fd) :
    Dropped p (((p.setSlot (p.node n).fd.toNat .empty).unlink n).delFd (p.node n).fd.toNat) n := by
  have hslot : Links (p.setSlot (p.node n).fd.toNat .empty) :=
    ⟨h.nodup, h.inTree, h.inLists, h.first⟩
  obtain ⟨hlinks, hperm, -⟩ := hslot.unlink hn
  have hsame := onlyLinks_unlink n (p.setSlot (p.node n).fd.toNat .empty)
  constructor
  · exact ⟨hlinks.nodup, hlinks.inTree, hlinks.inLists, hlinks.first⟩
  · exact hperm
  · rw [forget, if_pos hfd]
    exact hsame.nodes
  · rw [forget, if_pos hfd]
    simp only [delFd]
    rw [hsame.interest]
  · exact hsame.count
  · exact hsame.pipe
  · exact hsame.log
  · exact hsame.stopped
  · exact hsame.maxOpenFiles
  · exact hsame.fd
  · exact hsame.event
  · exact hsame.operation
  · exact hsame.removed

@[simp]
theorem forget_node (fd : Int) (p : Poller) : (p.forget fd).node = p.node := by
  unfold forget
  split_ifs <;> rfl

theorem forget_eq (fd : Int) (p : Poller) :
    p.forget fd = { p with nodes := (p.forget fd).nodes, interest := (p.forget fd).interest } := by
  unfold forget
  split_ifs <;> rfl

theorem Links.dropped_list (h : Links p) (hn : n ∈ p.timeoList) :
    Dropped p { p.forget (p.node n).fd with timeoList := p.timeoList.erase n } n := by
  have hflag : (p.node n).inRbtree = false := h.inLists n (List.mem_append_left _ hn)
  have hmem : n ∈ p.linked := by simp [Poller.linked, hn]
  obtain ⟨hlinks, hperm, -⟩ := h.unlink hmem
  have hother : p.noTimeoList.erase n = p.noTimeoList := by
    apply List.erase_of_not_mem
    intro hother
    exact List.disjoint_of_nodup_append (List.nodup_append.1 h.nodup).2.1 hn hother
  rw [Poller.unlink, if_neg (by simp [hflag])] at hlinks hperm
  rw [hother] at hlinks hperm
  rw [forget_eq]
  exact ⟨⟨hlinks.nodup, hlinks.inTree, hlinks.inLists, hlinks.first⟩, hperm, rfl, rfl, rfl, rfl, rfl,
    rfl, rfl, fun _ => rfl, fun _ => rfl, fun _ => rfl, fun _ => rfl⟩

theorem Links.dropped_tree (h : Links p) (hn : p.treeFirst = some n) :
    Dropped p { p.forget (p.node n).fd with
      treeFirst := rbNext n p.timeoTree
      timeoTree := p.timeoTree.erase n } n := by
  have htree : n ∈ p.timeoTree := by
    rw [h.first] at hn
    exact List.mem_of_mem_head? hn
  have hperm : p.linked.Perm (n :: (p.timeoTree.erase n ++ (p.timeoList ++ p.noTimeoList))) :=
    (List.perm_cons_erase htree).append_right _
  rw [forget_eq]
  refine ⟨⟨?_, ?_, h.inLists, ?_⟩, hperm, rfl, rfl, rfl, rfl, rfl, rfl, rfl, fun _ => rfl,
    fun _ => rfl, fun _ => rfl, fun _ => rfl⟩
  · exact (List.nodup_cons.1 (hperm.nodup_iff.1 h.nodup)).2
  · exact fun j hj => h.inTree j (List.mem_of_mem_erase hj)
  · change rbNext n p.timeoTree = (p.timeoTree.erase n).head?
    rw [head?_erase, if_pos (h.first ▸ hn)]

theorem Links.droppedAll_expireList (now : Timespec) (l : List Nat) (h : Links p) (hl : l.Nodup)
    (hmem : ∀ n ∈ l, n ∈ p.timeoList) :
    DroppedAll p (expireList now l p).1 (expireList now l p).2 := by
  induction l generalizing p with
  | nil => exact .nil
  | cons n rest ih =>
      simp only [expireList]
      split_ifs with hdue
      · obtain ⟨hnew, hrest⟩ := List.nodup_cons.1 hl
        have hfirst := h.dropped_list (hmem n (List.mem_cons_self ..))
        refine .cons hfirst (ih hfirst.links hrest ?_)
        intro j hj
        have hne : j ≠ n := fun heq => hnew (heq ▸ hj)
        exact (List.mem_erase_of_ne hne).2 (hmem j (List.mem_cons_of_mem n hj))
      · exact .nil

theorem Links.droppedAll_expireTree (now : Timespec) (fuel : Nat) (h : Links p) :
    DroppedAll p (expireTree now fuel p).1 (expireTree now fuel p).2 := by
  induction fuel generalizing p with
  | zero => exact .nil
  | succ fuel ih =>
      simp only [expireTree]
      split
      · exact .nil
      next n hn =>
        split_ifs
        · exact .cons (h.dropped_tree hn) (ih (h.dropped_tree hn).links)
        · exact .nil

theorem Links.droppedAll_expire (now : Timespec) (h : Links p) :
    DroppedAll p (p.expire now).1 (p.expire now).2 := by
  have hnodup : p.timeoList.Nodup :=
    (List.nodup_append.1 (List.nodup_append.1 h.nodup).2.1).1
  have hlist := h.droppedAll_expireList now p.timeoList hnodup (fun _ hn => hn)
  exact hlist.append ((hlist.links h).droppedAll_expireTree now _)

end Dropped

/-! ### What the calls of the users come to

A call that reports an error leaves everything as it is, so that only one outcome of each call is of interest. -/

section Calls

variable {p : Poller} {data : PollerData} {fd timeout : Int} {now : Timespec} {result : Except Errno Unit × Poller}

theorem fdError_eq_none (h : p.fdError fd = none) : 0 ≤ fd := by
  unfold fdError at h
  split_ifs at h
  omega

theorem add_cases (h : p.add data timeout now = some result) :
    (result.2 = p ∧ (p.fdError data.fd = none → p.nodes data.fd.toNat ≠ .empty))
    ∨ ∃ event, p.fdError data.fd = none ∧ dataGetEvent data.operation = some event
      ∧ p.nodes data.fd.toNat = .empty
      ∧ result.2 = (((p.alloc (newNode data.operation data.fd event (deadline now timeout))).addFd
          data.fd.toNat event (.node p.count)).place p.count (0 ≤ timeout)).setSlot
          data.fd.toNat (.node p.count) := by
  unfold add at h
  split at h
  next herror =>
    cases h
    exact .inl ⟨rfl, by simp [herror]⟩
  · cases h
  next event herror hevent =>
    split at h
    next hslot =>
      cases h
      exact .inr ⟨event, herror, hevent, hslot, rfl⟩
    next hslot =>
      cases h
      exact .inl ⟨rfl, by simp [hslot]⟩
    next hslot =>
      cases h
      exact .inl ⟨rfl, by simp [hslot]⟩

theorem del_cases (h : p.del fd = some result) :
    (result.2 = p ∧ (p.fdError fd = none → ∀ n, p.nodes fd.toNat ≠ .node n))
    ∨ ∃ n, p.fdError fd = none ∧ p.nodes fd.toNat = .node n
      ∧ result.2 = (((p.setSlot fd.toNat .empty).unlink n).delFd fd.toNat).retire n .deleted := by
  unfold del at h
  split at h
  next herror =>
    cases h
    exact .inl ⟨rfl, by simp [herror]⟩
  next herror =>
    split at h
    next hslot =>
      cases h
      exact .inl ⟨rfl, by simp [hslot]⟩
    · cases h
    next n hslot =>
      cases h
      exact .inr ⟨n, herror, hslot, rfl⟩

theorem mod_cases (h : p.mod data timeout now = some result) :
    (result.2 = p ∧ (p.fdError data.fd = none → ∀ n, p.nodes data.fd.toNat ≠ .node n))
    ∨ ∃ event old, p.fdError data.fd = none ∧ dataGetEvent data.operation = some event
      ∧ p.nodes data.fd.toNat = .node old
      ∧ result.2 = ((((p.unlink old).retire old .modified).alloc
          (newNode data.operation data.fd event (deadline now timeout))).place
          ((p.unlink old).retire old .modified).count (0 ≤ timeout)).setSlot
          data.fd.toNat (.node ((p.unlink old).retire old .modified).count) := by
  unfold mod at h
  split at h
  next herror =>
    cases h
    exact .inl ⟨rfl, by simp [herror]⟩
  · cases h
  next event herror hevent =>
    split at h
    next old hslot =>
      cases h
      exact .inr ⟨event, old, herror, hevent, hslot, rfl⟩
    next hslot =>
      cases h
      exact .inl ⟨rfl, by simp [hslot]⟩
    next hslot =>
      cases h
      exact .inl ⟨rfl, by simp [hslot]⟩

theorem setTimeout_cases (h : p.setTimeout fd timeout now = some result) :
    (result.2 = p ∧ (p.fdError fd = none → ∀ n, p.nodes fd.toNat ≠ .node n))
    ∨ ∃ n, p.fdError fd = none ∧ p.nodes fd.toNat = .node n
      ∧ result.2 = (if 0 ≤ timeout then
          (p.unlink n).setNode n { (p.unlink n).node n with timeout := deadline now timeout }
        else p.unlink n).place n (0 ≤ timeout) := by
  unfold setTimeout at h
  split at h
  next herror =>
    cases h
    exact .inl ⟨rfl, by simp [herror]⟩
  next herror =>
    split at h
    next hslot =>
      cases h
      exact .inl ⟨rfl, by simp [hslot]⟩
    · cases h
    next n hslot =>
      cases h
      exact .inr ⟨n, herror, hslot, rfl⟩

/-- What each of the five functions keeps, a call keeps. -/
theorem call_keeps {P : Call → Poller → Prop} {q : Poller} {call : Call} (hcall : p.call call = some q)
    (hadd : ∀ {data timeout now result}, p.add data timeout now = some result →
      P (.add data timeout now) result.2)
    (hdel : ∀ {fd result}, p.del fd = some result → P (.del fd) result.2)
    (hmod : ∀ {data timeout now result}, p.mod data timeout now = some result →
      P (.mod data timeout now) result.2)
    (hset : ∀ {fd timeout now result}, p.setTimeout fd timeout now = some result →
      P (.setTimeout fd timeout now) result.2)
    (htimer : ∀ value now, P (.addTimer value now) (p.addTimer value now)) : P call q := by
  cases call with
  | add data timeout now =>
      obtain ⟨result, hresult, rfl⟩ := Option.map_eq_some_iff.1 hcall
      exact hadd hresult
  | del fd =>
      obtain ⟨result, hresult, rfl⟩ := Option.map_eq_some_iff.1 hcall
      exact hdel hresult
  | mod data timeout now =>
      obtain ⟨result, hresult, rfl⟩ := Option.map_eq_some_iff.1 hcall
      exact hmod hresult
  | setTimeout fd timeout now =>
      obtain ⟨result, hresult, rfl⟩ := Option.map_eq_some_iff.1 hcall
      exact hset hresult
  | addTimer value now =>
      cases hcall
      exact htimer value now

end Calls

end WorkflowModel.Kernel.Poller
