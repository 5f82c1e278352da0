import WorkflowModel.Proof.PollerTable
import WorkflowModel.Proof.PollerDrain
import WorkflowModel.Lib.SearchTree

/-!
# Deadlines

Nodes with a deadline are in the list or in the tree, both sorted, and the loops of
`__poller_handle_timeout` stop at the first node that is not due. What the users have asked for is kept
beside the poller: `armed` gives the deadline of each live node that has one. Linking, unlinking and
expiry keep the two structures sorted, with exactly these nodes in them.
-/

namespace WorkflowModel.Kernel.Poller

open SearchTree

theorem timeoutCmp_lt_iff (a b : Timespec) :
    timeoutCmp a b < 0 ↔ a.sec < b.sec ∨ a.sec = b.sec ∧ a.nsec < b.nsec := by
  unfold timeoutCmp
  split_ifs <;> omega

theorem timeoutCmp_le_iff (a b : Timespec) : timeoutCmp a b ≤ 0 ↔ ¬ timeoutCmp b a < 0 := by
  unfold timeoutCmp
  split_ifs <;> omega

theorem timeoutCmp_le_trans {a b c : Timespec} (h : timeoutCmp a b ≤ 0) (h' : timeoutCmp b c ≤ 0) :
    timeoutCmp a c ≤ 0 := by
  rw [timeoutCmp_le_iff, timeoutCmp_lt_iff] at *
  omega

theorem timeoutCmp_lt_of_le_of_lt {a b c : Timespec} (h : timeoutCmp a b ≤ 0)
    (h' : timeoutCmp b c < 0) : timeoutCmp a c < 0 := by
  rw [timeoutCmp_le_iff] at h
  rw [timeoutCmp_lt_iff] at *
  omega

/-- The deadline of `a` is not after that of `b`. -/
def NotAfter (p : Poller) (a b : Nat) : Prop :=
  timeoutCmp (p.node a).timeout (p.node b).timeout ≤ 0

def due (p : Poller) (now : Timespec) (n : Nat) : Bool := timeoutCmp (p.node n).timeout now < 0

theorem splits_due {p : Poller} {l : List Nat} (now : Timespec) (h : l.Pairwise p.NotAfter) :
    Splits (fun n => !p.due now n) l := by
  refine h.imp ?_
  intro a b hab ha
  simp only [due, Bool.not_eq_true', decide_eq_false_iff_not] at ha ⊢
  exact fun hb => ha (timeoutCmp_lt_of_le_of_lt hab hb)

theorem splits_later {p : Poller} {l : List Nat} (n : Nat) (h : l.Pairwise p.NotAfter) :
    Splits (fun entry => decide (timeoutCmp (p.node n).timeout (p.node entry).timeout < 0)) l := by
  refine h.imp ?_
  intro a b hab ha
  simp only [decide_eq_true_eq] at ha ⊢
  unfold NotAfter at hab
  rw [timeoutCmp_le_iff] at hab
  rw [timeoutCmp_lt_iff] at *
  omega

/-- The position that `treeInsert` gives to a node is the one that the way down any tree with the same
sequence leads to, and `first` stays set exactly if the node becomes the first of the tree. -/
theorem treeInsert_eq_insertLeaf {p : Poller} (h : p.timeoTree.Pairwise p.NotAfter) (n : Nat)
    {t : BinTree Nat} (ht : t.inorder = p.timeoTree) :
    let before := fun entry => decide (timeoutCmp (p.node n).timeout (p.node entry).timeout < 0)
    (p.treeInsert n).timeoTree = (t.insertLeaf before n).inorder
      ∧ (p.treeInsert n).treeFirst = if t.alwaysLeft before then some n else p.treeFirst := by
  intro before
  have hsplits : Splits before t.inorder := ht ▸ splits_later n h
  have hbefore : (fun entry => decide ¬ timeoutCmp (p.node n).timeout (p.node entry).timeout < 0)
      = fun entry => !before entry := by
    funext entry
    exact decide_not
  constructor
  · rw [BinTree.inorder_insertLeaf n hsplits, ht, ← hbefore]
    rfl
  · rw [show t.alwaysLeft before
      = decide (p.timeoTree.takeWhile (fun entry => !before entry) = []) by
        rw [Bool.eq_iff_iff, BinTree.alwaysLeft_iff hsplits, ht, decide_eq_true_eq]]
    rw [← hbefore]
    simp only [decide_eq_true_eq]
    rfl

def deadlineOf (timeout : Int) (now : Timespec) : Option Timespec :=
  if 0 ≤ timeout then some (deadline now timeout) else none

def timed (p : Poller) : List Nat := p.timeoTree ++ p.timeoList

/-- The two structures are sorted and hold exactly the nodes that are armed. -/
structure Queued (p : Poller) (armed : Nat → Option Timespec) : Prop where
  links : Links p
  bounded : ∀ n ∈ p.linked, n < p.count
  list : p.timeoList.Pairwise p.NotAfter
  tree : p.timeoTree.Pairwise p.NotAfter
  armed : ∀ n, armed n = if n ∈ p.timed then some (p.node n).timeout else none

theorem mem_linked_of_mem_timed {p : Poller} {n : Nat} (h : n ∈ p.timed) : n ∈ p.linked := by
  simp only [timed, linked, List.mem_append] at h ⊢
  tauto

/-- Only the structures, the flags and the deadlines of the nodes in them count. -/
theorem Queued.congr {p q : Poller} {armed : Nat → Option Timespec} (h : Queued p armed)
    (htree : q.timeoTree = p.timeoTree) (hlist : q.timeoList = p.timeoList)
    (hother : q.noTimeoList = p.noTimeoList) (hfirst : q.treeFirst = p.treeFirst)
    (hcount : p.count ≤ q.count)
    (hflag : ∀ n ∈ p.linked, (q.node n).inRbtree = (p.node n).inRbtree)
    (htimeout : ∀ n ∈ p.timed, (q.node n).timeout = (p.node n).timeout) : Queued q armed := by
  have hlinked : q.linked = p.linked := by rw [linked, linked, htree, hlist, hother]
  have hsorted : ∀ l : List Nat, (∀ n ∈ l, n ∈ p.timed) → l.Pairwise p.NotAfter →
      l.Pairwise q.NotAfter := by
    intro l hl hp
    refine hp.imp_of_mem ?_
    intro a b ha hb hab
    unfold NotAfter
    rw [htimeout a (hl a ha), htimeout b (hl b hb)]
    exact hab
  refine ⟨⟨hlinked ▸ h.links.nodup, ?_, ?_, ?_⟩, ?_, ?_, ?_, ?_⟩
  · intro n hn
    rw [htree] at hn
    rw [hflag n (List.mem_append_left _ hn)]
    exact h.links.inTree n hn
  · intro n hn
    rw [hlist, hother] at hn
    rw [hflag n (List.mem_append_right _ hn)]
    exact h.links.inLists n hn
  · rw [hfirst, htree]
    exact h.links.first
  · intro n hn
    exact Nat.lt_of_lt_of_le (h.bounded n (hlinked ▸ hn)) hcount
  · rw [hlist]
    exact hsorted _ (fun n hn => List.mem_append_right _ hn) h.list
  · rw [htree]
    exact hsorted _ (fun n hn => List.mem_append_left _ hn) h.tree
  · intro n
    rw [h.armed n, timed, timed, htree, hlist]
    split_ifs with hn
    · rw [htimeout n hn]
    · rfl

section Link

variable {p : Poller} {armed : Nat → Option Timespec} {n : Nat}

theorem pairwise_append_of_getLast {l : List Nat} (h : l.Pairwise p.NotAfter)
    (hlast : ∀ last, l.getLast? = some last → p.NotAfter last n) : (l ++ [n]).Pairwise p.NotAfter := by
  rw [List.pairwise_append]
  refine ⟨h, List.pairwise_singleton _ _, ?_⟩
  intro a ha b hb
  obtain rfl : b = n := by simpa using hb
  obtain ⟨front, last, rfl⟩ := (List.eq_nil_or_concat' l).resolve_left (List.ne_nil_of_mem ha)
  have hn : p.NotAfter last b := hlast last (by simp)
  obtain ha | ha := List.mem_append.1 ha
  · exact timeoutCmp_le_trans ((List.pairwise_append.1 h).2.2 a ha last (by simp)) hn
  · obtain rfl : a = last := by simpa using ha
    exact hn

theorem pairwise_treeInsert {before after : List Nat} (h : (before ++ after).Pairwise p.NotAfter)
    (hbefore : ∀ a ∈ before, p.NotAfter a n) (hafter : ∀ b ∈ after, p.NotAfter n b) :
    (before ++ n :: after).Pairwise p.NotAfter := by
  obtain ⟨hfront, hback, hcross⟩ := List.pairwise_append.1 h
  refine List.pairwise_append.2 ⟨hfront, List.pairwise_cons.2 ⟨hafter, hback⟩, ?_⟩
  intro a ha b hb
  obtain rfl | hb := List.mem_cons.1 hb
  · exact hbefore a ha
  · exact hcross a ha b hb

/-- The two places where a node with a deadline is linked, with what is known there. -/
theorem linkTimed_cases (p : Poller) (n : Nat) :
    (p.linkTimed n = { p with timeoList := p.timeoList ++ [n] }
        ∧ ∀ last, p.timeoList.getLast? = some last → p.NotAfter last n)
      ∨ p.linkTimed n = p.treeInsert n
        ∧ ∃ last, p.timeoList.getLast? = some last ∧ ¬ p.NotAfter last n := by
  have hcmp : ∀ a b : Timespec, 0 ≤ timeoutCmp a b ↔ timeoutCmp b a ≤ 0 := by
    intro a b
    rw [timeoutCmp_le_iff]
    omega
  unfold linkTimed
  cases hlast : p.timeoList.getLast? with
  | none => exact .inl ⟨rfl, by simp⟩
  | some last =>
      by_cases horder : p.NotAfter last n
      · have hge := (hcmp (p.node n).timeout (p.node last).timeout).2 horder
        refine .inl ⟨by simp [hge], ?_⟩
        intro j hj
        cases hj
        exact horder
      · have hlt : ¬ 0 ≤ timeoutCmp (p.node n).timeout (p.node last).timeout :=
          fun hge => horder ((hcmp _ _).1 hge)
        exact .inr ⟨by simp [hlt], last, rfl, horder⟩

theorem linkTimed_timeout (p : Poller) (n j : Nat) :
    ((p.linkTimed n).node j).timeout = (p.node j).timeout := by
  obtain ⟨heq, -⟩ | ⟨heq, -⟩ := linkTimed_cases p n
  · rw [heq]
  · rw [heq]
    exact setNode_field PollerNode.timeout (by rfl) j

theorem pairwise_linkTimed (hlist : p.timeoList.Pairwise p.NotAfter)
    (htree : p.timeoTree.Pairwise p.NotAfter) :
    (p.linkTimed n).timeoList.Pairwise p.NotAfter
      ∧ (p.linkTimed n).timeoTree.Pairwise p.NotAfter := by
  obtain ⟨heq, hlast⟩ | ⟨heq, -⟩ := linkTimed_cases p n
  · rw [heq]
    exact ⟨pairwise_append_of_getLast hlist hlast, htree⟩
  · rw [heq]
    refine ⟨hlist, ?_⟩
    obtain ⟨hnot, hlater⟩ := filter_of_splits (splits_later n htree)
    simp only [← decide_not] at hnot hlater
    simp only [treeInsert]
    apply pairwise_treeInsert
    · rw [List.takeWhile_append_dropWhile]
      exact htree
    · intro a ha
      rw [hnot, List.mem_filter, decide_eq_true_eq] at ha
      exact (timeoutCmp_le_iff _ _).2 ha.2
    · intro b hb
      rw [hlater, List.mem_filter, decide_eq_true_eq] at hb
      exact Int.le_of_lt hb.2

theorem timed_linkTimed (p : Poller) (n : Nat) : (p.linkTimed n).timed.Perm (n :: p.timed) := by
  obtain ⟨heq, -⟩ | ⟨heq, -⟩ := linkTimed_cases p n
  · rw [heq, timed, timed, ← List.append_assoc]
    exact List.perm_append_singleton n _
  · obtain ⟨before, after, hsplit, htree, -⟩ := treeInsert_timeoTree p n
    rw [heq, timed, timed, htree, hsplit]
    change (before ++ n :: after ++ p.timeoList).Perm (n :: (before ++ after ++ p.timeoList))
    simp only [List.append_assoc, List.cons_append]
    exact List.perm_middle

theorem insertNode_timer (n : Nat) (p : Poller) :
    ∃ timer, p.insertNode n = { p.linkTimed n with timer := timer } := by
  have harm : ∀ other : Option Nat, ∃ timer,
      (p.linkTimed n).armBefore n other = { p.linkTimed n with timer := timer } := by
    intro other
    cases other with
    | none => exact ⟨_, rfl⟩
    | some other =>
        simp only [armBefore]
        split_ifs
        · exact ⟨_, rfl⟩
        · exact ⟨(p.linkTimed n).timer, rfl⟩
  rw [insertNode_eq]
  split_ifs
  · exact harm _
  · exact harm _
  · exact ⟨(p.linkTimed n).timer, rfl⟩

theorem Queued.insertNode (h : Queued p armed) (hn : n ∉ p.linked) (hcount : n < p.count)
    (hflag : (p.node n).inRbtree = false) :
    Queued (p.insertNode n) (Function.update armed n (some (p.node n).timeout)) := by
  obtain ⟨hlinks, hperm⟩ := h.links.linkTimed hn hflag
  obtain ⟨hlist, htree⟩ := pairwise_linkTimed (n := n) h.list h.tree
  have hsame : (p.linkTimed n).NotAfter = p.NotAfter := by
    funext a b
    rw [NotAfter, NotAfter, linkTimed_timeout, linkTimed_timeout]
  have hlinked : Queued (p.linkTimed n) (Function.update armed n (some (p.node n).timeout)) := by
    refine ⟨hlinks, ?_, hsame ▸ hlist, hsame ▸ htree, ?_⟩
    · intro j hj
      rw [(onlyLinks_linkTimed n p).count]
      obtain rfl | hj := List.mem_cons.1 (hperm.mem_iff.1 hj)
      · exact hcount
      · exact h.bounded j hj
    · intro j
      simp only [linkTimed_timeout, (timed_linkTimed p n).mem_iff]
      by_cases hj : j = n
      · rw [hj, Function.update_self]
        simp
      · rw [Function.update_of_ne hj, h.armed j]
        simp [hj]
  obtain ⟨timer, htimer⟩ := insertNode_timer n p
  rw [htimer]
  exact hlinked.congr rfl rfl rfl rfl le_rfl (fun _ _ => rfl) fun _ _ => rfl

theorem Queued.place (h : Queued p armed) (hn : n ∉ p.linked) (hcount : n < p.count)
    (hflag : (p.node n).inRbtree = false) (timed : Bool) :
    Queued (p.place n timed)
      (Function.update armed n (if timed then some (p.node n).timeout else none)) := by
  cases timed with
  | true => exact h.insertNode hn hcount hflag
  | false =>
      obtain ⟨hlinks, hperm⟩ := h.links.place hn hflag false
      refine ⟨hlinks, ?_, h.list, h.tree, ?_⟩
      · intro j hj
        obtain rfl | hj := List.mem_cons.1 (hperm.mem_iff.1 hj)
        · exact hcount
        · exact h.bounded j hj
      · intro j
        change _ = if j ∈ p.timed then some (p.node j).timeout else none
        by_cases hj : j = n
        · have hnot : n ∉ p.timed := fun hmem => hn (mem_linked_of_mem_timed hmem)
          rw [hj, Function.update_self]
          simp [hnot]
        · rw [Function.update_of_ne hj, h.armed j]

end Link

section Unlink

variable {p : Poller} {armed : Nat → Option Timespec} {n : Nat}

theorem unlink_timeout (p : Poller) (n j : Nat) :
    ((p.unlink n).node j).timeout = (p.node j).timeout := by
  unfold unlink
  split_ifs
  · exact setNode_field PollerNode.timeout (by rfl) j
  · rfl

theorem unlink_sublist (p : Poller) (n : Nat) :
    (p.unlink n).timeoList.Sublist p.timeoList ∧ (p.unlink n).timeoTree.Sublist p.timeoTree := by
  unfold unlink
  split_ifs
  · exact ⟨List.Sublist.refl _, List.erase_sublist⟩
  · exact ⟨List.erase_sublist, List.Sublist.refl _⟩

theorem Links.mem_unlink_timed (h : Links p) (n j : Nat) :
    j ∈ (p.unlink n).timed ↔ j ∈ p.timed ∧ j ≠ n := by
  obtain ⟨htree, hlists, hdisjoint⟩ := List.nodup_append.1 h.nodup
  have hlist := (List.nodup_append.1 hlists).1
  unfold Poller.unlink
  split_ifs with hflag
  · have hout : n ∉ p.timeoList := by
      intro hmem
      rw [h.inLists n (List.mem_append_left _ hmem)] at hflag
      cases hflag
    change j ∈ p.timeoTree.erase n ++ p.timeoList ↔ _
    simp only [timed, List.mem_append, htree.mem_erase_iff]
    grind
  · have hout : n ∉ p.timeoTree := fun hmem => hflag (h.inTree n hmem)
    simp only [timed, List.mem_append, hlist.mem_erase_iff]
    grind

theorem Links.mem_unlink (h : Links p) (hn : n ∈ p.linked) (j : Nat) :
    j ∈ (p.unlink n).linked ↔ j ∈ p.linked ∧ j ≠ n := by
  obtain ⟨-, hperm, -⟩ := h.unlink hn
  have hout : n ∉ (p.unlink n).linked := (List.nodup_cons.1 (hperm.nodup_iff.1 h.nodup)).1
  rw [hperm.mem_iff, List.mem_cons]
  grind

theorem Queued.unlink (h : Queued p armed) (hn : n ∈ p.linked) :
    Queued (p.unlink n) (Function.update armed n none) := by
  obtain ⟨hlinks, hperm, -⟩ := h.links.unlink hn
  obtain ⟨hlist, htree⟩ := unlink_sublist p n
  have hsame : (p.unlink n).NotAfter = p.NotAfter := by
    funext a b
    rw [NotAfter, NotAfter, unlink_timeout, unlink_timeout]
  refine ⟨hlinks, ?_, hsame ▸ h.list.sublist hlist, hsame ▸ h.tree.sublist htree, ?_⟩
  · intro j hj
    rw [(onlyLinks_unlink n p).count]
    exact h.bounded j (hperm.mem_iff.2 (List.mem_cons_of_mem n hj))
  · intro j
    simp only [unlink_timeout, h.links.mem_unlink_timed]
    by_cases hj : j = n
    · rw [hj, Function.update_self]
      simp
    · rw [Function.update_of_ne hj, h.armed j]
      simp [hj]

theorem Queued.alloc (h : Queued p armed) (node : PollerNode) : Queued (p.alloc node) armed := by
  have hold : ∀ j ∈ p.linked, (p.alloc node).node j = p.node j := by
    intro j hj
    exact Function.update_of_ne (Nat.ne_of_lt (h.bounded j hj)) ..
  refine h.congr rfl rfl rfl rfl (Nat.le_succ _) ?_ ?_
  · intro j hj
    rw [hold j hj]
  · intro j hj
    rw [hold j (mem_linked_of_mem_timed hj)]

theorem Queued.count_not_mem (h : Queued p armed) : p.count ∉ p.linked :=
  fun hmem => Nat.lt_irrefl _ (h.bounded _ hmem)

theorem Queued.create (h : Queued p armed) (node : PollerNode) (hflag : node.inRbtree = false)
    (timed : Bool) :
    Queued ((p.alloc node).place p.count timed)
      (Function.update armed p.count (if timed then some node.timeout else none)) := by
  have hself : (p.alloc node).node p.count = node := Function.update_self ..
  have hplace := (h.alloc node).place h.count_not_mem (Nat.lt_succ_self _)
    ((congrArg PollerNode.inRbtree hself).trans hflag) timed
  rwa [hself] at hplace

theorem retire_links (n : Nat) (state : ResultState) (p : Poller) :
    (p.retire n state).timeoTree = p.timeoTree ∧ (p.retire n state).timeoList = p.timeoList
      ∧ (p.retire n state).noTimeoList = p.noTimeoList
      ∧ (p.retire n state).treeFirst = p.treeFirst := by
  unfold Poller.retire
  simp only []
  split_ifs <;> exact ⟨rfl, rfl, rfl, rfl⟩

/-- A field that is neither the result nor the mark is the same in the node that leaves. -/
theorem retire_field {α : Type} (f : PollerNode → α)
    (hresult : ∀ (node : PollerNode) (state : Option ResultState) (error : Option Int),
      f { node with state := state, error := error } = f node)
    (hremoved : ∀ (node : PollerNode) (removed : Bool), f { node with removed := removed } = f node)
    (n : Nat) (state : ResultState) (p : Poller) (j : Nat) :
    f ((p.retire n state).node j) = f (p.node j) := by
  have hset : f ((p.setResult n state 0).node j) = f (p.node j) :=
    setNode_field f (hresult _ _ _) j
  unfold Poller.retire
  simp only []
  split_ifs
  · exact hset
  · rw [← hset]
    exact setNode_field (p := p.setResult n state 0) f (hremoved _ _) j

theorem Queued.retire (h : Queued p armed) (n : Nat) (state : ResultState) :
    Queued (p.retire n state) armed := by
  obtain ⟨htree, hlist, hother, hfirst⟩ := retire_links n state p
  refine h.congr htree hlist hother hfirst (retire_frame n state p).2.2.ge ?_ ?_
  · exact fun j _ => retire_field PollerNode.inRbtree (fun _ _ _ => rfl) (fun _ _ => rfl) n state p j
  · exact fun j _ => retire_field PollerNode.timeout (fun _ _ _ => rfl) (fun _ _ => rfl) n state p j

end Unlink

section Expire

variable {p : Poller} {armed : Nat → Option Timespec}

/-- The part of the poller that the loops of `__poller_handle_timeout` leave alone, and what they leave
of the two structures and of the table. -/
structure Expired (gone : List Nat) (p q : Poller) : Prop where
  node : q.node = p.node
  count : q.count = p.count
  log : q.log = p.log
  noTimeoList : q.noTimeoList = p.noTimeoList
  nodes : ∀ fd, q.nodes fd = if ∃ n ∈ gone, (p.node n).fd = (fd : Int) then .empty else p.nodes fd

theorem Expired.refl (p : Poller) : Expired [] p p :=
  ⟨rfl, rfl, rfl, rfl, fun fd => by simp⟩

theorem forget_nodes (fd : Int) (p : Poller) (k : Nat) :
    (p.forget fd).nodes k = if fd = (k : Int) then .empty else p.nodes k := by
  unfold forget
  split_ifs with hfd hk hk
  · have hk : k = fd.toNat := by omega
    simp [setSlot, delFd, hk]
  · have hk : k ≠ fd.toNat := by omega
    simp [setSlot, delFd, hk]
  · omega
  · rfl

/-- A round of the first loop takes `n` from the list. -/
def takeFromList (n : Nat) (p : Poller) : Poller :=
  { p.forget (p.node n).fd with timeoList := p.timeoList.erase n }

/-- A round of the second loop takes `n` from the tree. -/
def takeFromTree (n : Nat) (p : Poller) : Poller :=
  { p.forget (p.node n).fd with
    treeFirst := rbNext n p.timeoTree
    timeoTree := p.timeoTree.erase n }

theorem expireList_cons (now : Timespec) (n : Nat) (rest : List Nat) (p : Poller) :
    expireList now (n :: rest) p = if p.due now n then
      (n :: (expireList now rest (p.takeFromList n)).1, (expireList now rest (p.takeFromList n)).2)
    else ([], p) := by
  simp only [expireList, due, decide_eq_true_eq]
  rfl

theorem expireTree_succ (now : Timespec) (fuel n : Nat) (p : Poller) (h : p.treeFirst = some n) :
    expireTree now (fuel + 1) p = if p.due now n then
      (n :: (expireTree now fuel (p.takeFromTree n)).1, (expireTree now fuel (p.takeFromTree n)).2)
    else ([], p) := by
  simp only [expireTree, h, due, decide_eq_true_eq]
  rfl

theorem due_congr {q : Poller} (h : q.node = p.node) (now : Timespec) : q.due now = p.due now := by
  funext n
  rw [due, due, h]

theorem expired_takeFromList (n : Nat) (p : Poller) :
    Expired [n] p (p.takeFromList n) := by
  refine ⟨forget_node _ _, ?_, ?_, ?_, ?_⟩
  · rw [takeFromList, forget_eq]
  · rw [takeFromList, forget_eq]
  · rw [takeFromList, forget_eq]
  · intro fd
    simp [takeFromList, forget_nodes]

theorem expired_takeFromTree (n : Nat) (p : Poller) :
    Expired [n] p (p.takeFromTree n) := by
  refine ⟨forget_node _ _, ?_, ?_, ?_, ?_⟩
  · rw [takeFromTree, forget_eq]
  · rw [takeFromTree, forget_eq]
  · rw [takeFromTree, forget_eq]
  · intro fd
    simp [takeFromTree, forget_nodes]

theorem Expired.append {gone more : List Nat} {q r : Poller}
    (h : Expired gone p q) (h' : Expired more q r) : Expired (gone ++ more) p r := by
  refine ⟨h'.node.trans h.node, h'.count.trans h.count, h'.log.trans h.log,
    h'.noTimeoList.trans h.noTimeoList, ?_⟩
  intro fd
  rw [h'.nodes fd, h.nodes fd, h.node]
  by_cases hfirst : ∃ n ∈ gone, (p.node n).fd = (fd : Int)
  · obtain ⟨n, hn, hfd⟩ := hfirst
    rw [if_pos (⟨n, hn, hfd⟩ : ∃ n ∈ gone, (p.node n).fd = (fd : Int)), ite_self, if_pos]
    exact ⟨n, List.mem_append_left _ hn, hfd⟩
  · simp only [List.mem_append, or_and_right, exists_or, hfirst, false_or, if_false]

theorem expireList_eq (now : Timespec) (l : List Nat) (h : p.timeoList = l) :
    Expired (expireList now l p).1 p (expireList now l p).2
      ∧ (expireList now l p).1 = l.takeWhile (p.due now)
      ∧ (expireList now l p).2.timeoList = l.dropWhile (p.due now)
      ∧ (expireList now l p).2.timeoTree = p.timeoTree
      ∧ (expireList now l p).2.treeFirst = p.treeFirst := by
  induction l generalizing p with
  | nil => exact ⟨Expired.refl p, rfl, h, rfl, rfl⟩
  | cons n rest ih =>
      rw [expireList_cons]
      cases hdue : p.due now n with
      | true =>
          have hrest : (p.takeFromList n).timeoList = rest := by simp [takeFromList, h]
          have htaken := expired_takeFromList n p
          obtain ⟨hexpired, hgone, hlist, htree, hfirst⟩ := ih hrest
          rw [due_congr htaken.node] at hgone hlist
          have hsame : (p.takeFromList n).timeoTree = p.timeoTree
              ∧ (p.takeFromList n).treeFirst = p.treeFirst := by
            rw [takeFromList, forget_eq]
            exact ⟨rfl, rfl⟩
          refine ⟨htaken.append hexpired, ?_, ?_, htree.trans hsame.1, hfirst.trans hsame.2⟩
          · simp [hdue, hgone]
          · simp [hdue, hlist]
      | false => exact ⟨Expired.refl p, by simp [hdue], by simp [hdue, h], rfl, rfl⟩

theorem expireTree_eq (now : Timespec) (tree : List Nat) (h : p.timeoTree = tree)
    (hfirst : p.treeFirst = tree.head?) :
    Expired (expireTree now tree.length p).1 p (expireTree now tree.length p).2
      ∧ (expireTree now tree.length p).1 = tree.takeWhile (p.due now)
      ∧ (expireTree now tree.length p).2.timeoTree = tree.dropWhile (p.due now)
      ∧ (expireTree now tree.length p).2.treeFirst = (tree.dropWhile (p.due now)).head?
      ∧ (expireTree now tree.length p).2.timeoList = p.timeoList := by
  induction tree generalizing p with
  | nil => exact ⟨Expired.refl p, rfl, h, hfirst, rfl⟩
  | cons n rest ih =>
      rw [List.length_cons, expireTree_succ now rest.length n p hfirst]
      cases hdue : p.due now n with
      | true =>
          have hrest : (p.takeFromTree n).timeoTree = rest := by simp [takeFromTree, h]
          have hnext : (p.takeFromTree n).treeFirst = rest.head? := by simp [takeFromTree, rbNext, h]
          have htaken := expired_takeFromTree n p
          obtain ⟨hexpired, hgone, htree, hhead, hlist⟩ := ih hrest hnext
          rw [due_congr htaken.node] at hgone htree hhead
          have hsame : (p.takeFromTree n).timeoList = p.timeoList := by
            rw [takeFromTree, forget_eq]
          refine ⟨htaken.append hexpired, ?_, ?_, ?_, hlist.trans hsame⟩
          · simp [hdue, hgone]
          · simp [hdue, htree]
          · simp [hdue, hhead]
      | false => exact ⟨Expired.refl p, by simp [hdue], by simp [hdue, h], by simp [hdue, hfirst], rfl⟩

/-- In sorted structures the loops take exactly the nodes that are due. -/
theorem Queued.expire (h : Queued p armed) (now : Timespec) :
    Expired (p.expire now).1 p (p.expire now).2
      ∧ (p.expire now).1 = p.timeoList.filter (p.due now) ++ p.timeoTree.filter (p.due now)
      ∧ (p.expire now).2.timeoList = p.timeoList.filter (fun n => !p.due now n)
      ∧ (p.expire now).2.timeoTree = p.timeoTree.filter (fun n => !p.due now n)
      ∧ (p.expire now).2.treeFirst = (p.timeoTree.filter fun n => !p.due now n).head? := by
  obtain ⟨hlist, hgone, hleft, htree, hfirst⟩ := expireList_eq (p := p) now p.timeoList rfl
  have hsorted := filter_of_splits (splits_due now h.list)
  have hsorted' := filter_of_splits (splits_due now h.tree)
  simp only [Bool.not_not] at hsorted hsorted'
  obtain ⟨hexpired, hgone', hleft', hhead, hsame⟩ :=
    expireTree_eq now p.timeoTree htree (hfirst.trans h.links.first)
  rw [due_congr hlist.node] at hgone' hleft' hhead
  simp only [Poller.expire]
  rw [htree]
  refine ⟨hlist.append hexpired, ?_, ?_, ?_, ?_⟩
  · rw [hgone, hgone', hsorted.1, hsorted'.1]
  · rw [hsame, hleft, hsorted.2]
  · rw [hleft', hsorted'.2]
  · rw [hhead, hsorted'.2]

theorem Queued.mem_linked_of_expired (h : Queued p armed) {now : Timespec} {n : Nat}
    (hn : n ∈ (p.expire now).1) : n ∈ p.linked := by
  obtain ⟨-, hgone, -⟩ := h.expire now
  rw [hgone, List.mem_append, List.mem_filter, List.mem_filter] at hn
  simp only [linked, List.mem_append]
  tauto

theorem Queued.mem_expired (h : Queued p armed) (now : Timespec) (j : Nat) :
    j ∈ (p.expire now).2.linked ↔ j ∈ p.linked ∧ j ∉ (p.expire now).1 := by
  obtain ⟨hexpired, hgone, hlist, htree, -⟩ := h.expire now
  obtain ⟨htreeNodup, hlists, hdisjoint⟩ := List.nodup_append.1 h.links.nodup
  have hdisjoint' := (List.nodup_append.1 hlists).2.2
  rw [hgone, linked, htree, hlist, hexpired.noTimeoList]
  simp only [linked, List.mem_append, List.mem_filter, Bool.not_eq_true']
  grind

theorem Queued.expired (h : Queued p armed) (now : Timespec) :
    Queued (p.expire now).2 fun n => (armed n).filter fun d => !decide (timeoutCmp d now < 0) := by
  obtain ⟨hexpired, -, hlist, htree, hfirst⟩ := h.expire now
  have hsublist : (p.expire now).2.linked.Sublist p.linked := by
    rw [linked, linked, hlist, htree, hexpired.noTimeoList]
    exact List.filter_sublist.append (List.filter_sublist.append_right _)
  have hsame : (p.expire now).2.NotAfter = p.NotAfter := by
    funext a b
    rw [NotAfter, NotAfter, hexpired.node]
  refine ⟨⟨h.links.nodup.sublist hsublist, ?_, ?_, hfirst.trans (by rw [htree])⟩, ?_, ?_, ?_, ?_⟩
  · intro n hn
    rw [htree] at hn
    rw [hexpired.node]
    exact h.links.inTree n (List.mem_of_mem_filter hn)
  · intro n hn
    rw [hexpired.node]
    apply h.links.inLists
    rw [hlist, hexpired.noTimeoList] at hn
    exact (List.filter_sublist.append_right _).subset hn
  · intro n hn
    rw [hexpired.count]
    exact h.bounded n (hsublist.subset hn)
  · rw [hsame, hlist]
    exact h.list.sublist List.filter_sublist
  · rw [hsame, htree]
    exact h.tree.sublist List.filter_sublist
  · intro n
    have hmem : n ∈ (p.expire now).2.timed ↔ n ∈ p.timed ∧ p.due now n = false := by
      simp only [timed, htree, hlist, List.mem_append, List.mem_filter, Bool.not_eq_true']
      tauto
    simp only [hmem, hexpired.node, h.armed n]
    by_cases hn : n ∈ p.timed <;> cases hdue : p.due now n <;>
      simp_all [due]

end Expire

end WorkflowModel.Kernel.Poller
