import WorkflowModel.Proof.PollerLinks
import Mathlib.Order.Nat

/-!
# What is left when the poller stops

After the thread has ended, `poller_stop` hands over what is left: the nodes in the pipe, and then the nodes
of the three structures, which it collects in one list. Each round of the loop over this list hands its
node over twice, the first time before the state of the node is set. So only nodes in the pipe are handed
over as they should be.
-/

namespace WorkflowModel.Kernel

namespace Poller

/-- A node that is sent through the pipe is marked, and a node of the table is not. -/
structure Sent (p : Poller) : Prop where
  table : ∀ fd n, p.nodes fd = .node n →
    n < p.count ∧ (p.node n).removed = false ∧ (p.node n).fd.toNat = fd
  pipe : ∀ n, some n ∈ p.pipe → n < p.count ∧ (p.node n).removed = true
  nodup : (p.pipe.filterMap fun pointer => pointer).Nodup

/-- Entries of the table and pointers in the pipe only go away, and the nodes keep their descriptors and
marks. -/
structure Shrinks (p q : Poller) : Prop where
  nodes : ∀ fd n, q.nodes fd = .node n → p.nodes fd = .node n
  pipe : q.pipe.Sublist p.pipe
  count : q.count = p.count
  fd : ∀ n, (q.node n).fd = (p.node n).fd
  removed : ∀ n, (q.node n).removed = (p.node n).removed

namespace Shrinks

variable {p q r : Poller}

theorem refl (p : Poller) : Shrinks p p :=
  ⟨fun _ _ h => h, List.Sublist.refl _, rfl, fun _ => rfl, fun _ => rfl⟩

theorem trans (h : Shrinks p q) (h' : Shrinks q r) : Shrinks p r where
  nodes fd n hn := h.nodes fd n (h'.nodes fd n hn)
  pipe := h'.pipe.trans h.pipe
  count := h'.count.trans h.count
  fd n := (h'.fd n).trans (h.fd n)
  removed n := (h'.removed n).trans (h.removed n)

theorem of_onlyLinks (h : OnlyLinks p q) : Shrinks p q where
  nodes _ _ hn := h.nodes ▸ hn
  pipe := h.pipe ▸ List.Sublist.refl _
  count := h.count
  fd := h.fd
  removed := h.removed

end Shrinks

theorem Sent.shrink {p q : Poller} (h : Sent p) (hq : Shrinks p q) : Sent q where
  table fd n hn := by
    rw [hq.count, hq.removed, hq.fd]
    exact h.table fd n (hq.nodes fd n hn)
  pipe n hn := by
    rw [hq.count, hq.removed]
    exact h.pipe n (hq.pipe.subset hn)
  nodup := h.nodup.sublist (hq.pipe.filterMap _)

theorem shrinks_clear (fd : Nat) (p : Poller) : Shrinks p ((p.setSlot fd .empty).delFd fd) := by
  refine ⟨?_, List.Sublist.refl _, rfl, fun _ => rfl, fun _ => rfl⟩
  intro k n hn
  simp only [setSlot, delFd] at hn
  by_cases hk : k = fd
  · rw [hk, Function.update_self] at hn
    cases hn
  · rwa [Function.update_of_ne hk] at hn

theorem shrinks_forget (fd : Int) (p : Poller) : Shrinks p (p.forget fd) := by
  unfold forget
  split_ifs
  · exact shrinks_clear fd.toNat p
  · exact Shrinks.refl p

theorem shrinks_setResult (n : Nat) (state : ResultState) (error : Int) (p : Poller) :
    Shrinks p (p.setResult n state error) :=
  Shrinks.of_onlyLinks (onlyLinks_setNode rfl rfl rfl rfl)

theorem shrinks_addResult (n : Nat) (p : Poller) : Shrinks p (p.addResult n) :=
  ⟨fun _ _ h => h, List.Sublist.refl _, rfl, fun _ => rfl, fun _ => rfl⟩

theorem shrinks_unlink (fd n : Nat) (p : Poller) :
    Shrinks p (((p.setSlot fd .empty).unlink n).delFd fd) := by
  have hunlink := onlyLinks_unlink n (p.setSlot fd .empty)
  have hclear := shrinks_clear fd p
  refine ⟨?_, ?_, hunlink.count, hunlink.fd, hunlink.removed⟩
  · intro k j hj
    apply hclear.nodes k j
    simp only [delFd] at hj ⊢
    rw [hunlink.nodes] at hj
    exact hj
  · exact hunlink.pipe ▸ List.Sublist.refl _

theorem shrinks_removeNode (n : Nat) (p : Poller) : Shrinks p (p.removeNode n).2 := by
  unfold removeNode
  split_ifs
  · exact Shrinks.refl p
  · exact shrinks_unlink (p.node n).fd.toNat n p

theorem shrinks_expireList (now : Timespec) (l : List Nat) (p : Poller) :
    Shrinks p (expireList now l p).2 := by
  induction l generalizing p with
  | nil => exact Shrinks.refl p
  | cons n rest ih =>
      simp only [expireList]
      split_ifs
      · have hforget := shrinks_forget (p.node n).fd p
        refine Shrinks.trans ?_ (ih _)
        exact ⟨hforget.nodes, hforget.pipe, hforget.count, hforget.fd, hforget.removed⟩
      · exact Shrinks.refl p

theorem shrinks_expireTree (now : Timespec) (fuel : Nat) (p : Poller) :
    Shrinks p (expireTree now fuel p).2 := by
  induction fuel generalizing p with
  | zero => exact Shrinks.refl p
  | succ fuel ih =>
      simp only [expireTree]
      split
      · exact Shrinks.refl p
      next n _ =>
        split_ifs
        · have hforget := shrinks_forget (p.node n).fd p
          refine Shrinks.trans ?_ (ih _)
          exact ⟨hforget.nodes, hforget.pipe, hforget.count, hforget.fd, hforget.removed⟩
        · exact Shrinks.refl p

/-- A node that is not marked yet is marked and sent, or handed over. The table has no entry for it. -/
theorem Sent.retire {p : Poller} (h : Sent p) {n : Nat} (state : ResultState) (hn : n < p.count)
    (hremoved : (p.node n).removed = false) (htable : ∀ fd, p.nodes fd ≠ .node n) :
    Sent (p.retire n state) := by
  have hresult := h.shrink (shrinks_setResult n state 0 p)
  have hfresh : some n ∉ p.pipe := by
    intro hmem
    rw [(h.pipe n hmem).2] at hremoved
    cases hremoved
  unfold Poller.retire
  simp only []
  split_ifs
  · exact hresult.shrink (shrinks_addResult n _)
  · have hother : ∀ j, j ≠ n →
        ((p.setResult n state 0).send n).node j = (p.setResult n state 0).node j :=
      fun j hj => setNode_node_of_ne hj _ _
    constructor
    · intro fd j hj
      have hne : j ≠ n := fun heq => htable fd (heq ▸ hj)
      rw [hother j hne]
      exact hresult.table fd j hj
    · intro j hj
      obtain hj | hj := List.mem_append.1 hj
      · have hne : j ≠ n := fun heq => hfresh (heq ▸ hj)
        rw [hother j hne]
        exact hresult.pipe j hj
      · obtain rfl : j = n := by simpa using hj
        refine ⟨hn, ?_⟩
        change (((p.setResult j state 0).setNode j _).node j).removed = true
        rw [setNode_node_self]
    · change ((p.pipe ++ [some n]).filterMap fun pointer => pointer).Nodup
      rw [List.filterMap_append, List.nodup_append]
      refine ⟨h.nodup, by simp, ?_⟩
      intro a ha b hb heq
      obtain rfl : b = n := by simpa using hb
      rw [heq] at ha
      obtain ⟨pointer, hmem, hsome⟩ := List.mem_filterMap.1 ha
      rw [hsome] at hmem
      exact hfresh hmem

theorem Sent.alloc {p : Poller} (h : Sent p) (node : PollerNode) : Sent (p.alloc node) := by
  have hold : ∀ n, n < p.count → (p.alloc node).node n = p.node n := by
    intro n hn
    simp only [Poller.alloc]
    rw [Function.update_of_ne (Nat.ne_of_lt hn)]
  constructor
  · intro fd n hn
    obtain ⟨hlt, hrest⟩ := h.table fd n hn
    rw [hold n hlt]
    exact ⟨Nat.lt_succ_of_lt hlt, hrest⟩
  · intro n hn
    obtain ⟨hlt, hremoved⟩ := h.pipe n hn
    rw [hold n hlt]
    exact ⟨Nat.lt_succ_of_lt hlt, hremoved⟩
  · exact h.nodup

/-- The common end of `poller_add` and `poller_mod`: a new node comes into the table. -/
theorem Sent.install {p q : Poller} {node : PollerNode} {fd : Nat} (h : Sent (p.setSlot fd .empty))
    (hq : OnlyLinks (p.alloc node) q) (hremoved : node.removed = false) (hfd : node.fd.toNat = fd) :
    Sent (q.setSlot fd (.node p.count)) := by
  have hself : (p.alloc node).node p.count = node := Function.update_self ..
  have halloc : Sent ((p.setSlot fd .empty).alloc node) := h.alloc node
  constructor
  · intro k n hn
    change n < q.count ∧ (q.node n).removed = false ∧ (q.node n).fd.toNat = k
    rw [hq.count, hq.removed, hq.fd]
    simp only [setSlot] at hn
    by_cases hk : k = fd
    · rw [hk, Function.update_self] at hn
      cases hn
      rw [hself]
      exact ⟨Nat.lt_succ_self _, hremoved, hk ▸ hfd⟩
    · rw [Function.update_of_ne hk, hq.nodes] at hn
      apply halloc.table k n
      simp only [Poller.alloc, setSlot]
      rw [Function.update_of_ne hk]
      exact hn
  · intro n hn
    change n < q.count ∧ (q.node n).removed = true
    rw [hq.count, hq.removed]
    apply halloc.pipe n
    change some n ∈ q.pipe at hn
    rw [hq.pipe] at hn
    exact hn
  · change (q.pipe.filterMap fun pointer => pointer).Nodup
    rw [hq.pipe]
    exact halloc.nodup

theorem Sent.clear {p : Poller} (h : Sent p) (fd : Nat) : Sent (p.setSlot fd .empty) :=
  h.shrink ⟨(shrinks_clear fd p).nodes, List.Sublist.refl _, rfl, fun _ => rfl, fun _ => rfl⟩

theorem Sent.not_mem_clear {p : Poller} (h : Sent p) {fd n : Nat} (hn : p.nodes fd = .node n)
    (k : Nat) : (p.setSlot fd .empty).nodes k ≠ .node n := by
  intro hk
  simp only [setSlot] at hk
  by_cases heq : k = fd
  · rw [heq, Function.update_self] at hk
    cases hk
  · rw [Function.update_of_ne heq] at hk
    exact heq ((h.table k n hk).2.2.symm.trans (h.table fd n hn).2.2)

theorem Sent.add {p : Poller} (h : Sent p) {data : PollerData} {timeout : Int} {now : Timespec}
    {result : Except Errno Unit × Poller} (hadd : p.add data timeout now = some result) :
    Sent result.2 := by
  obtain ⟨heq, -⟩ | ⟨event, -, -, -, heq⟩ := add_cases hadd
  · rw [heq]
    exact h
  · rw [heq]
    have hplace := onlyLinks_place p.count (decide (0 ≤ timeout))
      ((p.alloc (newNode data.operation data.fd event (deadline now timeout))).addFd
        data.fd.toNat event (.node p.count))
    have hinstall : Sent ((p.alloc (newNode data.operation data.fd event
        (deadline now timeout))).setSlot data.fd.toNat (.node p.count)) :=
      (h.clear data.fd.toNat).install (OnlyLinks.refl _) rfl rfl
    refine hinstall.shrink ⟨?_, ?_, hplace.count, hplace.fd, hplace.removed⟩
    · intro k n hn
      simp only [setSlot] at hn ⊢
      rw [hplace.nodes] at hn
      exact hn
    · exact hplace.pipe ▸ List.Sublist.refl _

theorem Sent.del {p : Poller} (h : Sent p) {fd : Int} {result : Except Errno Unit × Poller}
    (hdel : p.del fd = some result) : Sent result.2 := by
  obtain ⟨heq, -⟩ | ⟨n, -, hn, heq⟩ := del_cases hdel
  · rw [heq]
    exact h
  · rw [heq]
    obtain ⟨hlt, hremoved, hfd⟩ := h.table fd.toNat n hn
    have hshrinks := shrinks_unlink fd.toNat n p
    have hunlink := onlyLinks_unlink n (p.setSlot fd.toNat .empty)
    apply (h.shrink hshrinks).retire
    · rw [hshrinks.count]
      exact hlt
    · rw [hshrinks.removed]
      exact hremoved
    · intro k hk
      simp only [delFd] at hk
      rw [hunlink.nodes] at hk
      exact h.not_mem_clear hn k hk

theorem retire_setSlot (n fd : Nat) (state : ResultState) (slot : Slot) (p : Poller) :
    (p.setSlot fd slot).retire n state = (p.retire n state).setSlot fd slot := by
  unfold Poller.retire
  simp only []
  split_ifs <;> first | rfl | contradiction

theorem Sent.mod {p : Poller} (h : Sent p) {data : PollerData} {timeout : Int} {now : Timespec}
    {result : Except Errno Unit × Poller} (hmod : p.mod data timeout now = some result) :
    Sent result.2 := by
  obtain ⟨heq, -⟩ | ⟨event, old, -, -, hold, heq⟩ := mod_cases hmod
  · rw [heq]
    exact h
  · rw [heq]
    obtain ⟨hlt, hremoved, hfd⟩ := h.table data.fd.toNat old hold
    have hunlink := onlyLinks_unlink old p
    have hunlinked := h.shrink (Shrinks.of_onlyLinks hunlink)
    -- the old node leaves the table before the new one comes
    have hretired : Sent (((p.unlink old).retire old .modified).setSlot data.fd.toNat .empty) := by
      rw [← retire_setSlot]
      apply (hunlinked.clear data.fd.toNat).retire
      · exact hunlink.count ▸ hlt
      · exact (hunlink.removed old).trans hremoved
      · exact hunlinked.not_mem_clear (hunlink.nodes ▸ hold)
    exact hretired.install (onlyLinks_place _ _ _) rfl rfl

theorem shrinks_setTimeout {p : Poller} {fd timeout : Int} {now : Timespec}
    {result : Except Errno Unit × Poller} (hset : p.setTimeout fd timeout now = some result) :
    Shrinks p result.2 := by
  obtain ⟨heq, -⟩ | ⟨n, -, -, heq⟩ := setTimeout_cases hset
  · rw [heq]
    exact Shrinks.refl p
  · rw [heq]
    have hunlink := Shrinks.of_onlyLinks (onlyLinks_unlink n p)
    refine Shrinks.trans (hunlink.trans ?_) (Shrinks.of_onlyLinks (onlyLinks_place n _ _))
    split_ifs
    · exact Shrinks.of_onlyLinks (onlyLinks_setNode rfl rfl rfl rfl)
    · exact Shrinks.refl _

theorem Sent.call {p q : Poller} (h : Sent p) {call : Call} (hcall : p.call call = some q) :
    Sent q := by
  apply call_keeps hcall h.add h.del h.mod
  · intro fd timeout now result hset
    exact h.shrink (shrinks_setTimeout hset)
  · intro value now
    exact (h.alloc _).shrink (Shrinks.of_onlyLinks (onlyLinks_insertNode p.count _))

theorem shrinks_log {p : Poller} (log : List Action) : Shrinks p { p with log := log } :=
  ⟨fun _ _ h => h, List.Sublist.refl _, rfl, fun _ => rfl, fun _ => rfl⟩

theorem shrinks_handleEvent (io : Io) (event : EventData) (batch : Batch) (p : Poller) :
    Shrinks p (p.handleEvent io event batch).2 := by
  cases event with
  | timer => exact Shrinks.refl p
  | pipe => exact Shrinks.refl p
  | node n =>
      simp only [handleEvent]
      split
      · split <;> exact shrinks_log _
      · split_ifs <;> exact shrinks_log _
      · exact Shrinks.refl p

theorem shrinks_threadStep {io : Io} {pc pc' : Pc} {p q : Poller}
    (h : threadStep io pc p = some (pc', q)) : Shrinks p q := by
  cases pc with
  | setTimer =>
      cases h
      exact (shrinks_log _).trans (.of_onlyLinks (onlyLinks_setTimer _))
  | wait =>
      obtain ⟨events, -, heq⟩ := Option.map_eq_some_iff.1 h
      cases heq
      exact shrinks_log _
  | event batch =>
      simp only [threadStep] at h
      split at h
      · cases h
        exact Shrinks.refl p
      next event rest _ =>
        have hevent := shrinks_handleEvent io event { batch with rest := rest } p
        rw [Option.some.inj h] at hevent
        exact hevent
  | removing n state error batch =>
      have hremove := (shrinks_log _).trans (shrinks_removeNode n (p.record (.removeNode n)))
      simp only [threadStep] at h
      split_ifs at h <;> (cases h; exact hremove)
  | finishing n state error batch =>
      cases h
      exact (shrinks_setResult n state error p).trans (shrinks_addResult n _)
  | checkPipe batch =>
      simp only [threadStep] at h
      split_ifs at h
      · cases h
        exact ⟨fun _ _ hn => hn, List.drop_sublist _ _, rfl, fun _ => rfl, fun _ => rfl⟩
      · cases h
        exact Shrinks.refl p
  | pipeResults pointers stop batch =>
      simp only [threadStep] at h
      split at h
      · cases h
        exact shrinks_addResult _ p
      · cases h
        exact Shrinks.refl p
      · split_ifs at h <;> (cases h; exact Shrinks.refl p)
  | timeout batch =>
      cases h
      exact (shrinks_expireList batch.now p.timeoList p).trans (shrinks_expireTree batch.now _ _)
  | timeoutResults expired batch =>
      simp only [threadStep] at h
      split at h
      · cases h
        exact (shrinks_setResult _ .error etimedout p).trans (shrinks_addResult _ _)
      · cases h
        exact Shrinks.refl p
  | returned => cases h

end Poller

namespace Machine

open Poller

theorem sent_step {m m' : Machine} {input : Input} (h : m.step input = some m')
    (hm : Sent m.poller) : Sent m'.poller := by
  cases input with
  | call call =>
      obtain ⟨p, hcall, rfl⟩ := Option.map_eq_some_iff.1 h
      exact hm.call hcall
  | stopMarker =>
      cases h
      refine ⟨hm.table, ?_, ?_⟩
      · intro n hn
        exact hm.pipe n (by simpa using hn)
      · change ((m.poller.pipe ++ [none]).filterMap fun pointer => pointer).Nodup
        rw [List.filterMap_append]
        simpa using hm.nodup
  | thread io =>
      obtain ⟨⟨pc, p⟩, hstep, rfl⟩ := Option.map_eq_some_iff.1 h
      exact hm.shrink (shrinks_threadStep hstep)

theorem sent_run {m m' : Machine} {inputs : List Input} (h : m.run inputs = some m')
    (hm : Sent m.poller) : Sent m'.poller := by
  induction inputs generalizing m with
  | nil =>
      cases h
      exact hm
  | cons input rest ih =>
      obtain ⟨next, hstep, hrest⟩ := Option.bind_eq_some_iff.1 h
      exact ih hrest (sent_step hstep hm)

theorem sent_startedMachine (fds : Descriptors) (maxOpenFiles : Nat) :
    Sent (startedMachine fds maxOpenFiles).poller := by
  refine ⟨?_, ?_, ?_⟩
  · intro fd n hn
    simp only [startedMachine, startedPoller] at hn
    split_ifs at hn
  · simp [startedMachine, startedPoller]
  · simp [startedMachine, startedPoller]

end Machine

namespace Poller

def resultsOf (n : Nat) (log : List Action) : List Action :=
  log.filter fun action => match action with
    | .addResult j _ _ => j = n
    | _ => false

@[simp]
theorem resultsOf_append (n : Nat) (log more : List Action) :
    resultsOf n (log ++ more) = resultsOf n log ++ resultsOf n more := List.filter_append ..

theorem length_resultsOf_singleton (n j : Nat) (state : Option ResultState) (error : Option Int) :
    (resultsOf n [.addResult j state error]).length = [j].count n := by
  by_cases hj : j = n <;> simp [resultsOf, hj]

theorem addResults_eq (pointers : List (Option Nat)) (p : Poller) :
    ∃ more, addResults pointers p = { p with log := p.log ++ more }
      ∧ ∀ n, (resultsOf n more).length = (pointers.filterMap fun pointer => pointer).count n := by
  induction pointers generalizing p with
  | nil => exact ⟨[], by simp [addResults], by simp [resultsOf]⟩
  | cons pointer rest ih =>
      cases pointer with
      | none =>
          obtain ⟨more, heq, hcount⟩ := ih p
          exact ⟨more, heq, by simpa using hcount⟩
      | some j =>
          obtain ⟨more, heq, hcount⟩ := ih (p.addResult j)
          refine ⟨.addResult j (p.node j).state (p.node j).error :: more, ?_, ?_⟩
          · change addResults rest (p.addResult j) = _
            rw [heq]
            simp [addResult, record]
          · intro n
            rw [← List.singleton_append, resultsOf_append, List.length_append, hcount,
              length_resultsOf_singleton]
            rw [← List.count_append, List.singleton_append]
            rfl

theorem stopNode_log (n : Nat) (p : Poller) :
    (p.stopNode n).log = p.log ++ [.addResult n (p.node n).state (p.node n).error]
      ++ [.addResult n (some .stopped) (some 0)] := by
  have hforget : ((p.addResult n).forget (p.node n).fd).log = (p.addResult n).log := by
    rw [forget_eq]
  simp only [stopNode]
  change ((p.addResult n).forget (p.node n).fd).log ++ _ = _
  rw [hforget]
  simp [addResult, record, setResult]

theorem stopAll_log (l : List Nat) (p : Poller) :
    ∃ more, (l.foldl (fun p n => p.stopNode n) p).log = p.log ++ more
      ∧ ∀ n, (resultsOf n more).length = 2 * l.count n := by
  induction l generalizing p with
  | nil => exact ⟨[], by simp, by simp [resultsOf]⟩
  | cons j rest ih =>
      obtain ⟨more, hlog, hcount⟩ := ih (p.stopNode j)
      refine ⟨[.addResult j (p.node j).state (p.node j).error]
        ++ [.addResult j (some .stopped) (some 0)] ++ more, ?_, ?_⟩
      · rw [List.foldl_cons, hlog, stopNode_log]
        simp
      · intro n
        have hcons : (j :: rest).count n = [j].count n + rest.count n := by
          rw [← List.count_append, List.singleton_append]
        simp only [resultsOf_append, List.length_append, length_resultsOf_singleton, hcount, hcons]
        omega

/-- The list that `poller_stop` makes of the three structures. -/
def remaining (order : RootOrder) (p : Poller) : List Nat :=
  p.noTimeoList ++ ((order.run p.timeoTree).reverse ++ p.timeoList)

theorem remaining_perm (order : RootOrder) (p : Poller) : (p.remaining order).Perm p.linked := by
  have htree : ((order.run p.timeoTree).reverse).Perm p.timeoTree :=
    (List.reverse_perm _).trans (order.perm _)
  have hlast : (p.remaining order).Perm
      ((order.run p.timeoTree).reverse ++ p.timeoList ++ p.noTimeoList) := List.perm_append_comm
  rw [List.append_assoc] at hlast
  exact hlast.trans (htree.append_right _)

/-- The poller before the last loop of `poller_stop`. -/
def emptied (p : Poller) : Poller :=
  let p := { p with stopped := true }
  let p := (p.setSlot p.pipeRd .empty).setSlot p.pipeWr .empty
  let p := addResults p.readPipe.1 p.readPipe.2
  { p.delFd p.pipeRd with
    pipe := []
    treeFirst := none
    timeoTree := []
    timeoList := []
    noTimeoList := [] }

theorem drain_eq (order : RootOrder) (p : Poller) :
    p.drain order = (p.remaining order).foldl (fun p n => p.stopNode n) p.emptied := by
  simp only [drain, emptied, readPipe]
  obtain ⟨more, heq, -⟩ := addResults_eq (p.pipe.take (pollerBufsize / 8))
    { ((({ p with stopped := true } : Poller).setSlot p.pipeRd .empty).setSlot p.pipeWr .empty) with
      pipe := p.pipe.drop (pollerBufsize / 8) }
  simp only [setSlot] at heq ⊢
  rw [heq]
  rfl

theorem emptied_log (p : Poller) :
    ∃ more, p.emptied.log = p.log ++ more ∧ ∀ n, (resultsOf n more).length
      = ((p.pipe.take (pollerBufsize / 8)).filterMap fun pointer => pointer).count n := by
  simp only [emptied, readPipe]
  obtain ⟨more, heq, hcount⟩ := addResults_eq (p.pipe.take (pollerBufsize / 8))
    { ((({ p with stopped := true } : Poller).setSlot p.pipeRd .empty).setSlot p.pipeWr .empty) with
      pipe := p.pipe.drop (pollerBufsize / 8) }
  simp only [setSlot] at heq ⊢
  refine ⟨more, ?_, hcount⟩
  rw [heq]
  rfl

theorem length_resultsOf_drain (order : RootOrder) (p : Poller) (n : Nat) :
    (resultsOf n ((p.drain order).log.drop p.log.length)).length
      = ((p.pipe.take (pollerBufsize / 8)).filterMap fun pointer => pointer).count n
        + 2 * p.linked.count n := by
  obtain ⟨fromPipe, hpipe, hpipeCount⟩ := emptied_log p
  obtain ⟨fromLoop, hloop, hloopCount⟩ := stopAll_log (p.remaining order) p.emptied
  rw [drain_eq, hloop, hpipe, List.append_assoc, List.drop_left, resultsOf_append, List.length_append,
    hpipeCount, hloopCount, (remaining_perm order p).count_eq]

/-- What should be left of a poller that has stopped: every node that was left has been handed over once,
the linked ones as stopped, and neither the structures nor the table have any of them. -/
structure Drained (p q : Poller) : Prop where
  once : ∀ n, n ∈ p.linked ∨ some n ∈ p.pipe → (resultsOf n (q.log.drop p.log.length)).length = 1
  stopped : ∀ n ∈ p.linked, ∀ action ∈ resultsOf n (q.log.drop p.log.length),
    action = .addResult n (some .stopped) (some 0)
  empty : q.timeoTree = [] ∧ q.timeoList = [] ∧ q.noTimeoList = []
  table : ∀ n ∈ p.linked, 0 ≤ (p.node n).fd → q.nodes (p.node n).fd.toNat = .empty

/-- Of the nodes in the pipe, those are handed over that one `read` takes. -/
theorem Sent.count_take {p : Poller} (h : Sent p) {n : Nat} (hn : some n ∈ p.pipe) (k : Nat) :
    ((p.pipe.take k).filterMap fun pointer => pointer).count n = 1 ↔ some n ∉ p.pipe.drop k := by
  have hsplit : ((p.pipe.take k).filterMap fun pointer => pointer)
      ++ ((p.pipe.drop k).filterMap fun pointer => pointer)
      = p.pipe.filterMap fun pointer => pointer := by
    rw [← List.filterMap_append, List.take_append_drop]
  have hone : (p.pipe.filterMap fun pointer => pointer).count n = 1 := by
    apply List.count_eq_one_of_mem h.nodup
    exact List.mem_filterMap.2 ⟨some n, hn, rfl⟩
  have hdrop : some n ∉ p.pipe.drop k
      ↔ ((p.pipe.drop k).filterMap fun pointer => pointer).count n = 0 := by
    rw [List.count_eq_zero, List.mem_filterMap]
    simp
  rw [← hsplit, List.count_append] at hone
  rw [hdrop]
  omega

theorem Sent.drained_iff {p : Poller} (h : Sent p) (order : RootOrder) :
    Drained p (p.drain order)
      ↔ p.linked = [] ∧ ∀ n, some n ∉ p.pipe.drop (pollerBufsize / 8) := by
  constructor
  · intro hdrained
    have hlinked : p.linked = [] := by
      rw [List.eq_nil_iff_forall_not_mem]
      intro n hn
      have honce := hdrained.once n (.inl hn)
      have hpos := List.count_pos_iff.2 hn
      rw [length_resultsOf_drain] at honce
      omega
    refine ⟨hlinked, ?_⟩
    intro n hn
    have hmem : some n ∈ p.pipe := List.mem_of_mem_drop hn
    have honce := hdrained.once n (.inr hmem)
    rw [length_resultsOf_drain, hlinked, List.count_nil, Nat.mul_zero, Nat.add_zero,
      h.count_take hmem] at honce
    exact honce hn
  · rintro ⟨hlinked, hread⟩
    have hnone : p.remaining order = [] := by
      have hperm := remaining_perm order p
      rw [hlinked] at hperm
      exact hperm.eq_nil
    have hloop : p.drain order = p.emptied := by
      rw [drain_eq, hnone]
      rfl
    refine ⟨?_, by simp [hlinked], ?_, by simp [hlinked]⟩
    · intro n hn
      obtain hn | hn := hn
      · simp [hlinked] at hn
      · rw [length_resultsOf_drain, hlinked, List.count_nil, Nat.mul_zero, Nat.add_zero]
        exact (h.count_take hn _).2 (hread n)
    · rw [hloop]
      exact ⟨rfl, rfl, rfl⟩

end Poller

namespace Machine

open Poller

/-- In every state of a run, `poller_stop` hands everything over as it should exactly if the three
structures are empty and one `read` takes all nodes from the pipe. -/
theorem drained_iff_nothing_linked {fds : Descriptors} {maxOpenFiles : Nat} {inputs : List Input}
    {m : Machine} (hrun : (startedMachine fds maxOpenFiles).run inputs = some m)
    (order : RootOrder) :
    Drained m.poller (m.poller.drain order)
      ↔ m.poller.linked = [] ∧ ∀ n, some n ∉ m.poller.pipe.drop (pollerBufsize / 8) :=
  (sent_run hrun (sent_startedMachine fds maxOpenFiles)).drained_iff order

def watchingRun : List Input := [.call (.add ⟨.read, 7⟩ (-1) ⟨0, 0⟩)]

def inOrder : RootOrder := ⟨fun l => l, fun l => .refl l⟩

theorem not_drained_watchingRun :
    ∃ m, (startedMachine ⟨3, 4, 5, 6, by decide⟩ 0).run watchingRun = some m
      ∧ ¬ Drained m.poller (m.poller.drain inOrder) := by
  have hrun : ((startedMachine ⟨3, 4, 5, 6, by decide⟩ 0).run watchingRun).map
      (fun m => (m.poller.linked, m.poller.log, (m.poller.drain inOrder).log))
      = some ([0], [], [.addResult 0 none none, .addResult 0 (some .stopped) (some 0)]) := by
    decide
  obtain ⟨m, hm, hlog⟩ := Option.map_eq_some_iff.1 hrun
  refine ⟨m, hm, ?_⟩
  intro hdrained
  simp only [Prod.mk.injEq] at hlog
  have honce := hdrained.once 0 (by simp [hlog.1])
  rw [hlog.2.1, hlog.2.2] at honce
  simp [resultsOf] at honce

/-- The watched descriptor is given up again, and its node is in the pipe. -/
def givenUpRun : List Input := watchingRun ++ [.call (.del 7)]

theorem drained_givenUpRun :
    ∃ m, (startedMachine ⟨3, 4, 5, 6, by decide⟩ 0).run givenUpRun = some m
      ∧ some 0 ∈ m.poller.pipe ∧ Drained m.poller (m.poller.drain inOrder) := by
  have hrun : ((startedMachine ⟨3, 4, 5, 6, by decide⟩ 0).run givenUpRun).map
      (fun m => (m.poller.linked, m.poller.pipe)) = some ([], [some 0]) := by decide
  obtain ⟨m, hm, hpipe⟩ := Option.map_eq_some_iff.1 hrun
  simp only [Prod.mk.injEq] at hpipe
  refine ⟨m, hm, by simp [hpipe.2], (drained_iff_nothing_linked hm inOrder).2 ⟨hpipe.1, ?_⟩⟩
  rw [hpipe.2]
  simp [pollerBufsize]

end Machine

end WorkflowModel.Kernel
