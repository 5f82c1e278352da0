import WorkflowModel.Proof.PollerLinks
import Mathlib.Order.Nat

/-!
# A node is handed over once

A node is in exactly one place: linked in the poller, in the pipe, in the hands of the thread, or handed
over. The events of a batch are pointers to nodes that were linked when the thread woke up. As long as
none of these nodes is taken from the pipe or found expired while its event is still to come, they are
linked or in the pipe when the thread looks at them, and no node is handed over twice or touched after it
was handed over.
-/

namespace WorkflowModel.Kernel

/-- The call hands the node `n` over. -/
def Action.hands (n : Nat) : Action → Prop
  | .addResult j _ _ => j = n
  | _ => False

/-- The call hands `n` over or works on it. -/
def Action.concerns (n : Nat) : Action → Prop
  | .addResult j _ _ => j = n
  | .handleRead j => j = n
  | .handleConnect j => j = n
  | .removeNode j => j = n
  | _ => False

theorem concerns_of_hands {n : Nat} {action : Action} (h : action.hands n) : action.concerns n := by
  cases action with
  | addResult => exact h
  | _ => exact h.elim

/-- What comes after a node has been handed over does not concern it. -/
def HandedOverOnce (log : List Action) : Prop :=
  log.Pairwise fun earlier later => ∀ n, earlier.hands n → ¬ later.concerns n

def handed (log : List Action) : List Nat :=
  log.filterMap fun action => match action with
    | .addResult n _ _ => some n
    | _ => none

theorem mem_handed {log : List Action} {n : Nat} :
    n ∈ handed log ↔ ∃ action ∈ log, action.hands n := by
  unfold handed
  rw [List.mem_filterMap]
  apply exists_congr
  intro action
  cases action <;> simp [Action.hands]

theorem HandedOverOnce.append {log : List Action} (h : HandedOverOnce log) {action : Action}
    (haction : ∀ n ∈ handed log, ¬ action.concerns n) : HandedOverOnce (log ++ [action]) := by
  unfold HandedOverOnce
  rw [List.pairwise_append]
  refine ⟨h, List.pairwise_singleton _ _, ?_⟩
  intro earlier hearlier later hlater n hhands
  obtain rfl : later = action := by simpa using hlater
  exact haction n (mem_handed.2 ⟨earlier, hearlier, hhands⟩)

namespace Poller

def sentNodes (p : Poller) : List Nat := p.pipe.filterMap fun pointer => pointer

/-- Every node that exists, with `held` those in the hands of the thread. -/
def places (p : Poller) (held : List Nat) : List Nat :=
  p.linked ++ (p.sentNodes ++ (held ++ handed p.log))

structure Nodes (p : Poller) (held : List Nat) : Prop where
  links : Links p
  running : p.stopped = false
  nodup : (p.places held).Nodup
  bounded : ∀ n ∈ p.places held, n < p.count
  table : ∀ fd n, p.nodes fd = .node n → n ∈ p.linked ∧ (p.node n).fd = fd
  registered : ∀ fd n event, p.interest fd = some (.node n, event) → p.nodes fd = .node n
  unmarked : ∀ n ∈ p.linked, (p.node n).removed = false
  marked : ∀ n ∈ p.sentNodes, (p.node n).removed = true
  once : HandedOverOnce p.log

def Dispatched (p : Poller) (n : Nat) : Prop :=
  (p.node n).operation = .read ∨ (p.node n).operation = .connect

structure Watched (p : Poller) (watched : List Nat) : Prop where
  nodup : watched.Nodup
  bounded : ∀ n ∈ watched, n < p.count
  alive : ∀ n ∈ watched, p.Dispatched n → n ∈ p.linked ∨ n ∈ p.sentNodes
  fd : ∀ n ∈ watched, 0 ≤ (p.node n).fd

/-- Nodes stay what they are, and those that are linked or in the pipe stay so. -/
structure Keeps (p q : Poller) : Prop where
  count : p.count ≤ q.count
  fd : ∀ n, n < p.count → (q.node n).fd = (p.node n).fd
  operation : ∀ n, n < p.count → (q.node n).operation = (p.node n).operation
  alive : ∀ n, n ∈ p.linked ∨ n ∈ p.sentNodes → n ∈ q.linked ∨ n ∈ q.sentNodes

theorem Keeps.refl (p : Poller) : Keeps p p :=
  ⟨le_rfl, fun _ _ => rfl, fun _ _ => rfl, fun _ h => h⟩

/-- The nodes of `gone` are no longer there, but none of them is waited for. -/
theorem Watched.lose {p q : Poller} {watched : List Nat} (h : Watched p watched) (gone : List Nat)
    (hcount : p.count ≤ q.count) (hfd : ∀ n, n < p.count → (q.node n).fd = (p.node n).fd)
    (hoperation : ∀ n, n < p.count → (q.node n).operation = (p.node n).operation)
    (halive : ∀ n, n ∉ gone → n ∈ p.linked ∨ n ∈ p.sentNodes → n ∈ q.linked ∨ n ∈ q.sentNodes)
    (hgone : ∀ n ∈ watched, p.Dispatched n → n ∉ gone) : Watched q watched where
  nodup := h.nodup
  bounded n hn := Nat.lt_of_lt_of_le (h.bounded n hn) hcount
  alive n hn hdispatched := by
    have hbefore : p.Dispatched n := by
      unfold Dispatched at hdispatched ⊢
      rwa [hoperation n (h.bounded n hn)] at hdispatched
    exact halive n (hgone n hn hbefore) (h.alive n hn hbefore)
  fd n hn := by
    rw [hfd n (h.bounded n hn)]
    exact h.fd n hn

theorem Watched.keep {p q : Poller} {watched : List Nat} (h : Watched p watched) (hq : Keeps p q) :
    Watched q watched := by
  apply h.lose [] hq.count hq.fd hq.operation
  · exact fun n _ hn => hq.alive n hn
  · exact fun n _ _ => List.not_mem_nil

theorem Watched.sublist {p : Poller} {watched rest : List Nat} (h : Watched p watched)
    (hrest : rest.Sublist watched) : Watched p rest where
  nodup := h.nodup.sublist hrest
  bounded n hn := h.bounded n (hrest.subset hn)
  alive n hn := h.alive n (hrest.subset hn)
  fd n hn := h.fd n (hrest.subset hn)

namespace Nodes

variable {p q : Poller} {held : List Nat}

theorem not_handed_of_linked (h : Nodes p held) {n : Nat} (hn : n ∈ p.linked ∨ n ∈ p.sentNodes) :
    n ∉ held ∧ n ∉ handed p.log := by
  have hnodup := h.nodup
  unfold places at hnodup
  obtain hn | hn := hn
  · have hdisjoint := List.disjoint_of_nodup_append hnodup hn
    simp only [List.mem_append] at hdisjoint
    exact ⟨fun hmem => hdisjoint (.inr (.inl hmem)), fun hmem => hdisjoint (.inr (.inr hmem))⟩
  · have hdisjoint := List.disjoint_of_nodup_append (List.nodup_append.1 hnodup).2.1 hn
    simp only [List.mem_append] at hdisjoint
    exact ⟨fun hmem => hdisjoint (.inl hmem), fun hmem => hdisjoint (.inr hmem)⟩

theorem record (h : Nodes p held) {action : Action} (hhands : ∀ n, ¬ action.hands n)
    (hconcerns : ∀ n, action.concerns n → n ∉ handed p.log) : Nodes (p.record action) held := by
  have hlog : handed (p.record action).log = handed p.log := by
    simp only [Poller.record, handed, List.filterMap_append]
    cases action <;> simp_all [Action.hands]
  have hplaces : (p.record action).places held = p.places held := by
    unfold places
    rw [hlog]
    rfl
  refine ⟨⟨h.links.nodup, h.links.inTree, h.links.inLists, h.links.first⟩, h.running, ?_, ?_, h.table,
    h.registered, h.unmarked, h.marked, ?_⟩
  · rw [hplaces]
    exact h.nodup
  · rw [hplaces]
    exact h.bounded
  · exact h.once.append fun n hn hc => hconcerns n hc hn

theorem record_other (h : Nodes p held) {action : Action} (hother : ∀ n, ¬ action.concerns n) :
    Nodes (p.record action) held := by
  apply h.record
  · exact fun n hhands => hother n (concerns_of_hands hhands)
  · exact fun n hconcerns => absurd hconcerns (hother n)

theorem addResult {n : Nat} (h : Nodes p (n :: held)) : Nodes (p.addResult n) held := by
  have hnew : n ∉ handed p.log := by
    have hheld := (List.nodup_append.1 (List.nodup_append.1 h.nodup).2.1).2.1
    have hcons := List.nodup_cons.1 hheld
    intro hmem
    exact hcons.1 (List.mem_append_right _ hmem)
  have hperm : ((p.addResult n).places held).Perm (p.places (n :: held)) := by
    have hlog : handed (p.addResult n).log = handed p.log ++ [n] := by
      simp only [Poller.addResult, Poller.record, handed, List.filterMap_append]
      rfl
    unfold places
    rw [hlog]
    apply List.Perm.append_left
    apply List.Perm.append_left
    rw [← List.append_assoc]
    exact List.perm_append_singleton n _
  refine ⟨⟨h.links.nodup, h.links.inTree, h.links.inLists, h.links.first⟩, h.running, ?_, ?_, h.table,
    h.registered, h.unmarked, h.marked, ?_⟩
  · exact hperm.nodup_iff.2 h.nodup
  · exact fun j hj => h.bounded j (hperm.mem_iff.1 hj)
  · apply h.once.append
    intro j hj hconcerns
    obtain rfl : n = j := hconcerns
    exact hnew hj

theorem relink (h : Nodes p held) (hq : OnlyLinks p q) (hlinks : Links q)
    (hperm : q.linked.Perm p.linked) : Nodes q held := by
  have hsent : q.sentNodes = p.sentNodes := by
    unfold sentNodes
    rw [hq.pipe]
  have hplaces : (q.places held).Perm (p.places held) := by
    unfold places
    rw [hsent, hq.log]
    exact hperm.append_right _
  constructor
  · exact hlinks
  · exact hq.stopped.trans h.running
  · exact hplaces.nodup_iff.2 h.nodup
  · intro n hn
    rw [hq.count]
    exact h.bounded n (hplaces.mem_iff.1 hn)
  · intro fd n hn
    rw [hq.nodes] at hn
    rw [hperm.mem_iff, hq.fd]
    exact h.table fd n hn
  · intro fd n event hn
    rw [hq.interest] at hn
    rw [hq.nodes]
    exact h.registered fd n event hn
  · intro n hn
    rw [hq.removed]
    exact h.unmarked n (hperm.mem_iff.1 hn)
  · intro n hn
    rw [hq.removed]
    exact h.marked n (hsent ▸ hn)
  · rw [hq.log]
    exact h.once

theorem keeps_of_onlyLinks (hq : OnlyLinks p q) (hperm : q.linked.Perm p.linked) : Keeps p q where
  count := hq.count.ge
  fd n _ := hq.fd n
  operation n _ := hq.operation n
  alive n hn := by
    rw [hperm.mem_iff]
    unfold sentNodes at hn ⊢
    rwa [hq.pipe]

theorem setResult (h : Nodes p held) (n : Nat) (state : ResultState) (error : Int) :
    Nodes (p.setResult n state error) held := by
  have hsame : OnlyLinks p (p.setResult n state error) := onlyLinks_setNode rfl rfl rfl rfl
  have hlinks : Links (p.setResult n state error) := h.links.setNode rfl
  exact h.relink hsame hlinks (List.Perm.refl _)

theorem dropped (h : Nodes p held) {n : Nat} (hq : Dropped p q n) : Nodes q (n :: held) := by
  have hsent : q.sentNodes = p.sentNodes := by
    unfold sentNodes
    rw [hq.pipe]
  have hplaces : (q.places (n :: held)).Perm (p.places held) := by
    unfold places
    rw [hsent, hq.log]
    calc
      (q.linked ++ (p.sentNodes ++ n :: (held ++ handed p.log))).Perm
          (q.linked ++ n :: (p.sentNodes ++ (held ++ handed p.log))) :=
        List.Perm.append_left _ List.perm_middle
      List.Perm _ (n :: q.linked ++ (p.sentNodes ++ (held ++ handed p.log))) := List.perm_middle
      List.Perm _ (p.linked ++ (p.sentNodes ++ (held ++ handed p.log))) :=
        (hq.linked.append_right _).symm
  have hforget : ∀ fd j, q.nodes fd = .node j → p.nodes fd = .node j ∧ (p.node n).fd ≠ fd := by
    intro fd j hj
    rw [hq.nodes] at hj
    unfold forget at hj
    split_ifs at hj with hfd
    · simp only [setSlot, delFd] at hj
      by_cases heq : fd = (p.node n).fd.toNat
      · rw [heq, Function.update_self] at hj
        cases hj
      · rw [Function.update_of_ne heq] at hj
        exact ⟨hj, by omega⟩
    · exact ⟨hj, by omega⟩
  constructor
  · exact hq.links
  · exact hq.stopped.trans h.running
  · exact hplaces.nodup_iff.2 h.nodup
  · intro j hj
    rw [hq.count]
    exact h.bounded j (hplaces.mem_iff.1 hj)
  · intro fd j hj
    obtain ⟨hold, hne⟩ := hforget fd j hj
    obtain ⟨hlinked, hfd⟩ := h.table fd j hold
    rw [hq.fd]
    refine ⟨?_, hfd⟩
    obtain rfl | hj := List.mem_cons.1 (hq.linked.mem_iff.1 hlinked)
    · exact absurd hfd hne
    · exact hj
  · intro fd j event hj
    rw [hq.interest] at hj
    rw [hq.nodes]
    unfold forget at hj ⊢
    split_ifs at hj ⊢ with hfd
    · simp only [setSlot, delFd] at hj ⊢
      by_cases heq : fd = (p.node n).fd.toNat
      · rw [heq, Function.update_self] at hj
        cases hj
      · rw [Function.update_of_ne heq] at hj ⊢
        exact h.registered fd j event hj
    · exact h.registered fd j event hj
  · intro j hj
    rw [hq.removed]
    exact h.unmarked j (hq.linked.mem_iff.2 (List.mem_cons_of_mem n hj))
  · intro j hj
    rw [hq.removed]
    exact h.marked j (hsent ▸ hj)
  · rw [hq.log]
    exact h.once

theorem droppedAll (h : Nodes p held) {ns : List Nat} (hq : DroppedAll p ns q) :
    Nodes q (ns.reverse ++ held) := by
  induction hq generalizing held with
  | nil => exact h
  | cons first _ ih =>
      rw [List.reverse_cons, List.append_assoc]
      exact ih (h.dropped first)

theorem perm (h : Nodes p held) {held' : List Nat} (hperm : held'.Perm held) : Nodes p held' := by
  have hplaces : (p.places held').Perm (p.places held) := by
    unfold places
    exact ((hperm.append_right _).append_left _).append_left _
  exact ⟨h.links, h.running, hplaces.nodup_iff.2 h.nodup,
    fun n hn => h.bounded n (hplaces.mem_iff.1 hn), h.table, h.registered, h.unmarked, h.marked, h.once⟩

theorem send_field {α : Type} (f : PollerNode → α) {n : Nat}
    (h : f { p.node n with removed := true } = f (p.node n)) (j : Nat) :
    f ((p.send n).node j) = f (p.node j) := setNode_field f h j

theorem send {n : Nat} (h : Nodes p (n :: held)) : Nodes (p.send n) held := by
  have hlinked : n ∉ p.linked := by
    intro hn
    exact (h.not_handed_of_linked (.inl hn)).1 (List.mem_cons_self ..)
  have hsent : (p.send n).sentNodes = p.sentNodes ++ [n] := by
    simp only [Poller.send, sentNodes, List.filterMap_append]
    rfl
  have hplaces : ((p.send n).places held).Perm (p.places (n :: held)) := by
    unfold places
    rw [hsent, List.append_assoc]
    exact List.Perm.refl _
  have hself : ((p.send n).node n).removed = true := by
    change ((p.setNode n _).node n).removed = true
    rw [setNode_node_self]
  have hother : ∀ j, j ≠ n → (p.send n).node j = p.node j := fun j hj => setNode_node_of_ne hj _ p
  have hlinks : Links (p.setNode n { p.node n with removed := true }) := h.links.setNode rfl
  constructor
  · exact ⟨hlinks.nodup, hlinks.inTree, hlinks.inLists, hlinks.first⟩
  · exact h.running
  · exact hplaces.nodup_iff.2 h.nodup
  · exact fun j hj => h.bounded j (hplaces.mem_iff.1 hj)
  · intro fd j hj
    obtain ⟨hmem, hfd⟩ := h.table fd j hj
    have hne : j ≠ n := fun heq => hlinked (heq ▸ hmem)
    rw [hother j hne]
    exact ⟨hmem, hfd⟩
  · exact h.registered
  · intro j hj
    have hne : j ≠ n := fun heq => hlinked (heq ▸ hj)
    rw [hother j hne]
    exact h.unmarked j hj
  · intro j hj
    by_cases heq : j = n
    · rw [heq]
      exact hself
    · rw [hother j heq]
      rw [hsent] at hj
      apply h.marked j
      simpa [heq] using hj
  · exact h.once

theorem retire {n : Nat} (h : Nodes p (n :: held)) (state : ResultState) :
    Nodes (p.retire n state) held := by
  have hresult := h.setResult n state 0
  unfold Poller.retire
  simp only []
  rw [if_neg (by simp [hresult.running])]
  exact hresult.send

theorem retire_running (n : Nat) (state : ResultState) (hrunning : p.stopped = false) :
    (p.retire n state).linked = p.linked ∧ (p.retire n state).sentNodes = p.sentNodes ++ [n]
      ∧ (p.retire n state).count = p.count
      ∧ (∀ j, ((p.retire n state).node j).fd = (p.node j).fd)
      ∧ ∀ j, ((p.retire n state).node j).operation = (p.node j).operation := by
  have hsent : p.retire n state = (p.setResult n state 0).send n := by
    unfold Poller.retire
    exact if_neg (by simp [Poller.setResult, setNode, hrunning])
  have hresult : OnlyLinks p (p.setResult n state 0) := onlyLinks_setNode rfl rfl rfl rfl
  rw [hsent]
  refine ⟨rfl, ?_, rfl, ?_, ?_⟩
  · simp only [Poller.send, sentNodes, List.filterMap_append]
    rfl
  · exact fun j => (send_field PollerNode.fd rfl j).trans (hresult.fd j)
  · exact fun j => (send_field PollerNode.operation rfl j).trans (hresult.operation j)

theorem added (h : Nodes p held) (hlinks : Links q) (hperm : q.linked.Perm (p.count :: p.linked))
    (hcount : q.count = p.count + 1) (hpipe : q.pipe = p.pipe) (hlog : q.log = p.log)
    (hstopped : q.stopped = p.stopped) (hfd : ∀ n, n < p.count → (q.node n).fd = (p.node n).fd)
    (hoperation : ∀ n, n < p.count → (q.node n).operation = (p.node n).operation)
    (hremoved : ∀ n, n < p.count → (q.node n).removed = (p.node n).removed)
    (hnew : (q.node p.count).removed = false)
    (htable : ∀ fd n, q.nodes fd = .node n →
      p.nodes fd = .node n ∨ (n = p.count ∧ (q.node n).fd = fd))
    (hregistered : ∀ fd n event, q.interest fd = some (.node n, event) → q.nodes fd = .node n) :
    Nodes q held ∧ Keeps p q := by
  have hsent : q.sentNodes = p.sentNodes := by
    unfold sentNodes
    rw [hpipe]
  have hplaces : (q.places held).Perm (p.count :: p.places held) := by
    unfold places
    rw [hsent, hlog]
    exact hperm.append_right _
  have hfresh : p.count ∉ p.places held := fun hmem => Nat.lt_irrefl _ (h.bounded _ hmem)
  have hkeeps : Keeps p q := by
    refine ⟨hcount ▸ Nat.le_succ _, hfd, hoperation, ?_⟩
    intro n hn
    rw [hperm.mem_iff, hsent]
    exact hn.imp (List.mem_cons_of_mem _) id
  refine ⟨?_, hkeeps⟩
  constructor
  · exact hlinks
  · exact hstopped.trans h.running
  · exact hplaces.nodup_iff.2 (List.nodup_cons.2 ⟨hfresh, h.nodup⟩)
  · intro n hn
    rw [hcount]
    obtain rfl | hn := List.mem_cons.1 (hplaces.mem_iff.1 hn)
    · exact Nat.lt_succ_self _
    · exact Nat.lt_succ_of_lt (h.bounded n hn)
  · intro fd n hn
    rw [hperm.mem_iff]
    obtain hold | ⟨rfl, hfdn⟩ := htable fd n hn
    · obtain ⟨hmem, hfdn⟩ := h.table fd n hold
      have hlt := h.bounded n (List.mem_append_left _ hmem)
      exact ⟨List.mem_cons_of_mem _ hmem, (hfd n hlt).trans hfdn⟩
    · exact ⟨List.mem_cons_self .., hfdn⟩
  · exact hregistered
  · intro n hn
    obtain rfl | hn := List.mem_cons.1 (hperm.mem_iff.1 hn)
    · exact hnew
    · rw [hremoved n (h.bounded n (List.mem_append_left _ hn))]
      exact h.unmarked n hn
  · intro n hn
    rw [hsent] at hn
    rw [hremoved n (h.bounded n (List.mem_append_right _ (List.mem_append_left _ hn)))]
    exact h.marked n hn
  · rw [hlog]
    exact h.once

end Nodes

section Calls

variable {p : Poller} {held : List Nat}

theorem Nodes.lt_count (h : Nodes p held) {n : Nat} (hn : n ∈ p.linked) : n < p.count :=
  h.bounded n (List.mem_append_left _ hn)

theorem Nodes.links_alloc (h : Nodes p held) (node : PollerNode) : Links (p.alloc node) := by
  have hold : ∀ n ∈ p.linked, (p.alloc node).node n = p.node n := by
    intro n hn
    simp only [alloc]
    rw [Function.update_of_ne (Nat.ne_of_lt (h.lt_count hn))]
  refine ⟨h.links.nodup, ?_, ?_, h.links.first⟩
  · intro n hn
    rw [hold n (List.mem_append_left _ hn)]
    exact h.links.inTree n hn
  · intro n hn
    rw [hold n (List.mem_append_right _ hn)]
    exact h.links.inLists n hn

theorem alloc_node_self (node : PollerNode) (p : Poller) : (p.alloc node).node p.count = node :=
  Function.update_self ..

theorem alloc_node_of_lt (node : PollerNode) {n : Nat} (hn : n < p.count) :
    (p.alloc node).node n = p.node n := Function.update_of_ne (Nat.ne_of_lt hn) ..

theorem Nodes.placed (h : Nodes p held) (node : PollerNode) (hflag : node.inRbtree = false)
    (timed : Bool) (interest : Nat → Option (EventData × Nat)) :
    Links (({ p.alloc node with interest := interest } : Poller).place p.count timed)
      ∧ (({ p.alloc node with interest := interest } : Poller).place p.count timed).linked.Perm
        (p.count :: p.linked) := by
  have hlinks := h.links_alloc node
  apply Links.place
  · exact ⟨hlinks.nodup, hlinks.inTree, hlinks.inLists, hlinks.first⟩
  · exact fun hmem => Nat.lt_irrefl _ (h.lt_count hmem)
  · change ((p.alloc node).node p.count).inRbtree = false
    rw [alloc_node_self, hflag]

/-- A new node is linked, and the table and the registrations know it or do not. -/
theorem Nodes.entered (h : Nodes p held) (node : PollerNode) (timed : Bool)
    (interest : Nat → Option (EventData × Nat)) (nodes : Nat → Slot) (hremoved : node.removed = false)
    (hflag : node.inRbtree = false)
    (htable : ∀ fd n, nodes fd = .node n → p.nodes fd = .node n ∨ n = p.count ∧ node.fd = fd)
    (hregistered : ∀ fd n event, interest fd = some (.node n, event) → nodes fd = .node n) :
    let q := { ({ p.alloc node with interest := interest } : Poller).place p.count timed with nodes := nodes }
    Nodes q held ∧ Keeps p q := by
  intro q
  obtain ⟨hlinks, hperm⟩ := h.placed node hflag timed interest
  have hplace := onlyLinks_place p.count timed { p.alloc node with interest := interest }
  have hself : (q.node p.count).fd = node.fd :=
    (hplace.fd p.count).trans (congrArg PollerNode.fd (alloc_node_self node p))
  apply h.added
  · exact ⟨hlinks.nodup, hlinks.inTree, hlinks.inLists, hlinks.first⟩
  · exact hperm
  · exact hplace.count
  · exact hplace.pipe
  · exact hplace.log
  · exact hplace.stopped
  · intro n hn
    exact (hplace.fd n).trans (congrArg PollerNode.fd (alloc_node_of_lt node hn))
  · intro n hn
    exact (hplace.operation n).trans (congrArg PollerNode.operation (alloc_node_of_lt node hn))
  · intro n hn
    exact (hplace.removed n).trans (congrArg PollerNode.removed (alloc_node_of_lt node hn))
  · exact (hplace.removed p.count).trans
      ((congrArg PollerNode.removed (alloc_node_self node p)).trans hremoved)
  · intro fd n hn
    obtain hold | ⟨rfl, hfd⟩ := htable fd n hn
    · exact .inl hold
    · exact .inr ⟨rfl, hself.trans hfd⟩
  · intro fd n event hn
    change (({ p.alloc node with interest := interest } : Poller).place p.count timed).interest fd = _ at hn
    rw [hplace.interest] at hn
    exact hregistered fd n event hn

theorem Nodes.add (h : Nodes p held) {data : PollerData} {timeout : Int} {now : Timespec}
    {result : Except Errno Unit × Poller} (hadd : p.add data timeout now = some result) :
    Nodes result.2 held ∧ Keeps p result.2 := by
  obtain ⟨heq, -⟩ | ⟨event, herror, -, -, heq⟩ := add_cases hadd
  · rw [heq]
    exact ⟨h, Keeps.refl p⟩
  · rw [heq]
    have hfd := fdError_eq_none herror
    have hplace := onlyLinks_place p.count (decide (0 ≤ timeout))
      ((p.alloc (newNode data.operation data.fd event (deadline now timeout))).addFd
        data.fd.toNat event (.node p.count))
    apply h.entered (newNode data.operation data.fd event (deadline now timeout)) (decide (0 ≤ timeout)) _ _ rfl rfl
    · intro fd n hn
      by_cases hfd' : fd = data.fd.toNat
      · rw [hfd', Function.update_self] at hn
        cases hn
        refine .inr ⟨rfl, ?_⟩
        rw [hfd', Int.toNat_of_nonneg hfd]
        rfl
      · rw [Function.update_of_ne hfd', hplace.nodes] at hn
        exact .inl hn
    · intro fd n event' hn
      rw [hplace.nodes]
      by_cases hfd' : fd = data.fd.toNat
      · rw [hfd', Function.update_self] at hn ⊢
        cases hn
        rfl
      · rw [Function.update_of_ne hfd'] at hn ⊢
        exact h.registered fd n event' hn

theorem Nodes.del (h : Nodes p held) {fd : Int} {result : Except Errno Unit × Poller}
    (hdel : p.del fd = some result) : Nodes result.2 held ∧ Keeps p result.2 := by
  obtain ⟨heq, -⟩ | ⟨n, -, hn, heq⟩ := del_cases hdel
  · rw [heq]
    exact ⟨h, Keeps.refl p⟩
  · rw [heq]
    obtain ⟨hlinked, hfd⟩ := h.table fd.toNat n hn
    have hdropped := h.links.dropped hlinked (by omega)
    rw [hfd, Int.toNat_natCast] at hdropped
    have hnodes := h.dropped hdropped
    refine ⟨hnodes.retire .deleted, ?_⟩
    obtain ⟨hlinks, hsent, hcount, hnodeFd, hoperation⟩ :=
      retire_running n .deleted hnodes.running
    refine ⟨?_, ?_, ?_, ?_⟩
    · rw [hcount, hdropped.count]
    · exact fun j _ => (hnodeFd j).trans (hdropped.fd j)
    · exact fun j _ => (hoperation j).trans (hdropped.operation j)
    · intro j hj
      rw [hlinks, hsent, sentNodes, hdropped.pipe]
      rw [hdropped.linked.mem_iff, List.mem_cons] at hj
      obtain (rfl | hj) | hj := hj
      · exact .inr (by simp)
      · exact .inl hj
      · exact .inr (List.mem_append_left _ hj)

theorem Nodes.relinked (h : Nodes p held) {n : Nat} (hn : n ∈ p.linked) {r : Poller}
    (hr : OnlyLinks (p.unlink n) r) (hlists : r.linked = (p.unlink n).linked) (hlinks : Links r)
    (hflag : (r.node n).inRbtree = false) (timed : Bool) :
    Nodes (r.place n timed) held ∧ Keeps p (r.place n timed) := by
  obtain ⟨-, hunlinked, -⟩ := h.links.unlink hn
  have hnew : n ∉ r.linked := by
    rw [hlists]
    exact (List.nodup_cons.1 (hunlinked.nodup_iff.1 h.links.nodup)).1
  obtain ⟨hplaced, hperm⟩ := hlinks.place hnew hflag timed
  have hsame := (onlyLinks_unlink n p).trans (hr.trans (onlyLinks_place n timed r))
  rw [hlists] at hperm
  have hall := hperm.trans hunlinked.symm
  exact ⟨h.relink hsame hplaced hall, keeps_of_onlyLinks hsame hall⟩

theorem Nodes.setTimeout (h : Nodes p held) {fd timeout : Int} {now : Timespec}
    {result : Except Errno Unit × Poller} (hset : p.setTimeout fd timeout now = some result) :
    Nodes result.2 held ∧ Keeps p result.2 := by
  obtain ⟨heq, -⟩ | ⟨n, -, hn, heq⟩ := setTimeout_cases hset
  · rw [heq]
    exact ⟨h, Keeps.refl p⟩
  · rw [heq]
    have hlinked := (h.table fd.toNat n hn).1
    obtain ⟨hlinks, -, hflag⟩ := h.links.unlink hlinked
    by_cases htimed : 0 ≤ timeout
    · rw [if_pos htimed]
      generalize hnode : ({ (p.unlink n).node n with timeout := deadline now timeout } : PollerNode)
        = node
      have hsame : OnlyLinks (p.unlink n) ((p.unlink n).setNode n node) := by
        apply onlyLinks_setNode <;> rw [← hnode]
      have hflagNode : node.inRbtree = ((p.unlink n).node n).inRbtree := by rw [← hnode]
      have hself : (((p.unlink n).setNode n node).node n).inRbtree = false := by
        rw [setNode_node_self, hflagNode, hflag]
      exact h.relinked hlinked hsame rfl (hlinks.setNode hflagNode) hself _
    · rw [if_neg htimed]
      exact h.relinked hlinked (OnlyLinks.refl _) rfl hlinks hflag _

theorem Nodes.addTimer (h : Nodes p held) (value now : Timespec) :
    Nodes (p.addTimer value now) held ∧ Keeps p (p.addTimer value now) := by
  have hnodes : (p.addTimer value now).nodes = p.nodes := (onlyLinks_insertNode p.count _).nodes
  apply h.entered (newNode .timer (-1) 0 (carry ⟨now.sec + value.sec, now.nsec + value.nsec⟩)) true p.interest
    (p.addTimer value now).nodes rfl rfl
  · intro fd n hn
    rw [hnodes] at hn
    exact .inl hn
  · intro fd n event hn
    rw [hnodes]
    exact h.registered fd n event hn

end Calls

end Poller

end WorkflowModel.Kernel
