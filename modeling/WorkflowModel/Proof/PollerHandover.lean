import WorkflowModel.Proof.PollerNodes
import WorkflowModel.Proof.PollerStop

/-!
# Handing over nodes, over whole runs

The thread keeps the nodes in their places with every step, whatever the other threads call in between.
The loop over a batch reads the pipe and looks for deadlines after each event, not after the last one, so
a node can be handed over while its own event is still to come. A run that never does so hands every node
over once.
-/

namespace WorkflowModel.Kernel

def batchNodes (events : List EventData) : List Nat :=
  events.filterMap fun event => match event with
    | .node n => some n
    | _ => none

namespace Poller

variable {p q : Poller} {held : List Nat}

/-- `epoll` gives every node at most once, and only nodes that are linked. -/
theorem Nodes.mapM_interest (h : Nodes p held) {ready : List Nat} {events : List EventData}
    (hready : ready.Nodup) (hevents : ready.mapM (fun fd => (p.interest fd).map Prod.fst) = some events) :
    (batchNodes events).Nodup ∧ ∀ n ∈ batchNodes events, ∃ fd ∈ ready, p.nodes fd = .node n := by
  induction ready generalizing events with
  | nil =>
      cases hevents
      simp [batchNodes]
  | cons fd ready ih =>
      rw [List.mapM_cons] at hevents
      obtain ⟨event, hevent, hevents⟩ := Option.bind_eq_some_iff.1 hevents
      obtain ⟨rest, hrest, heq⟩ := Option.bind_eq_some_iff.1 hevents
      cases heq
      obtain ⟨hfd, hready⟩ := List.nodup_cons.1 hready
      obtain ⟨hnodup, hmem⟩ := ih hready hrest
      have hlater : ∀ n ∈ batchNodes rest, ∃ fd' ∈ fd :: ready, p.nodes fd' = .node n := by
        intro n hn
        obtain ⟨fd', hfd', hslot⟩ := hmem n hn
        exact ⟨fd', List.mem_cons_of_mem _ hfd', hslot⟩
      cases event with
      | timer => exact ⟨hnodup, hlater⟩
      | pipe => exact ⟨hnodup, hlater⟩
      | node n =>
          obtain ⟨⟨_, mask⟩, hinterest, rfl⟩ := Option.map_eq_some_iff.1 hevent
          have hslot := h.registered fd n mask hinterest
          refine ⟨List.nodup_cons.2 ⟨?_, hnodup⟩, ?_⟩
          · -- a node has one descriptor, and each descriptor is reported once
            intro hagain
            obtain ⟨fd', hfd', hslot'⟩ := hmem n hagain
            have hsame : (fd : Int) = fd' := (h.table fd n hslot).2.symm.trans (h.table fd' n hslot').2
            obtain rfl : fd = fd' := by omega
            exact hfd hfd'
          · intro j hj
            obtain rfl | hj := List.mem_cons.1 hj
            · exact ⟨fd, List.mem_cons_self .., hslot⟩
            · exact hlater j hj

theorem Nodes.watched_readyEvents (h : Nodes p held) {io : Io} {events : List EventData}
    (hevents : p.readyEvents io = some events) : Watched p (batchNodes events) := by
  unfold readyEvents at hevents
  split_ifs at hevents with hready
  obtain ⟨hnodup, hmem⟩ := h.mapM_interest hready.1 hevents
  have hlinked : ∀ n ∈ batchNodes events, n ∈ p.linked ∧ 0 ≤ (p.node n).fd := by
    intro n hn
    obtain ⟨fd, -, hslot⟩ := hmem n hn
    obtain ⟨hlinked, hfd⟩ := h.table fd n hslot
    exact ⟨hlinked, by omega⟩
  exact ⟨hnodup, fun n hn => h.lt_count (hlinked n hn).1, fun n hn _ => .inl (hlinked n hn).1,
    fun n hn => (hlinked n hn).2⟩

theorem mem_expireList {now : Timespec} {l : List Nat} {n : Nat} (hn : n ∈ (expireList now l p).1) :
    n ∈ l ∧ timeoutCmp (p.node n).timeout now < 0 := by
  induction l generalizing p with
  | nil => cases hn
  | cons first rest ih =>
      simp only [expireList] at hn
      split_ifs at hn with hdue
      · obtain rfl | hn := List.mem_cons.1 hn
        · exact ⟨List.mem_cons_self .., hdue⟩
        · obtain ⟨hmem, hpast⟩ := ih hn
          rw [forget_node] at hpast
          exact ⟨List.mem_cons_of_mem _ hmem, hpast⟩
      · cases hn

theorem expireList_tree (now : Timespec) (l : List Nat) (p : Poller) :
    (expireList now l p).2.node = p.node ∧ (expireList now l p).2.timeoTree = p.timeoTree := by
  induction l generalizing p with
  | nil => exact ⟨rfl, rfl⟩
  | cons first rest ih =>
      simp only [expireList]
      split_ifs
      · obtain ⟨hnode, htree⟩ := ih { p.forget (p.node first).fd with
          timeoList := p.timeoList.erase first }
        refine ⟨hnode.trans (forget_node _ p), htree.trans ?_⟩
        change (p.forget (p.node first).fd).timeoTree = p.timeoTree
        rw [forget_eq]
      · exact ⟨rfl, rfl⟩

theorem mem_expireTree {now : Timespec} {fuel n : Nat} (h : Links p)
    (hn : n ∈ (expireTree now fuel p).1) :
    n ∈ p.timeoTree ∧ timeoutCmp (p.node n).timeout now < 0 := by
  induction fuel generalizing p with
  | zero => cases hn
  | succ fuel ih =>
      simp only [expireTree] at hn
      split at hn
      · cases hn
      next first hfirst =>
        split_ifs at hn with hdue
        · have hmem : first ∈ p.timeoTree := by
            rw [h.first] at hfirst
            exact List.mem_of_mem_head? hfirst
          obtain rfl | hn := List.mem_cons.1 hn
          · exact ⟨hmem, hdue⟩
          · obtain ⟨hrest, hpast⟩ := ih (h.dropped_tree hfirst).links hn
            rw [forget_node] at hpast
            exact ⟨List.mem_of_mem_erase hrest, hpast⟩
        · cases hn

theorem Links.mem_expire (h : Links p) {now : Timespec} {n : Nat} (hn : n ∈ (p.expire now).1) :
    n ∈ p.timeoTree ++ p.timeoList ∧ timeoutCmp (p.node n).timeout now < 0 := by
  have hnodup : p.timeoList.Nodup :=
    (List.nodup_append.1 (List.nodup_append.1 h.nodup).2.1).1
  have hlist := h.droppedAll_expireList now p.timeoList hnodup (fun _ hn => hn)
  obtain ⟨hnode, htree⟩ := expireList_tree now p.timeoList p
  obtain hn | hn := List.mem_append.1 hn
  · obtain ⟨hmem, hpast⟩ := mem_expireList hn
    exact ⟨List.mem_append_right _ hmem, hpast⟩
  · obtain ⟨hmem, hpast⟩ := mem_expireTree (hlist.links h) hn
    rw [htree] at hmem
    rw [hnode] at hpast
    exact ⟨List.mem_append_left _ hmem, hpast⟩

theorem Dropped.watched {n : Nat} {watched : List Nat} (hq : Dropped p q n) (h : Watched p watched)
    (hn : ∀ j ∈ watched, p.Dispatched j → j ≠ n) : Watched q watched := by
  apply h.lose [n] hq.count.ge
  · exact fun j _ => hq.fd j
  · exact fun j _ => hq.operation j
  · intro j hj halive
    have hne : j ≠ n := by simpa using hj
    rw [hq.linked.mem_iff] at halive
    unfold sentNodes at halive ⊢
    rw [hq.pipe]
    simpa [hne] using halive
  · intro j hj hdispatched
    simpa using hn j hj hdispatched

theorem DroppedAll.watched {ns watched : List Nat} (hq : DroppedAll p ns q) (h : Watched p watched)
    (hns : ∀ n ∈ watched, p.Dispatched n → n ∉ ns) : Watched q watched := by
  induction hq with
  | nil => exact h
  | @cons p q r first ns hfirst _ ih =>
      have hq : Watched q watched := by
        apply hfirst.watched h
        rintro n hn hdispatched rfl
        exact hns n hn hdispatched (List.mem_cons_self ..)
      apply ih hq
      intro n hn hdispatched hmem
      unfold Dispatched at hdispatched
      rw [hfirst.operation] at hdispatched
      exact hns n hn hdispatched (List.mem_cons_of_mem _ hmem)

theorem Nodes.expire (h : Nodes p []) (now : Timespec) : Nodes (p.expire now).2 (p.expire now).1 := by
  have hdropped := h.droppedAll (h.links.droppedAll_expire now)
  rw [List.append_nil] at hdropped
  exact hdropped.perm (List.reverse_perm _).symm

theorem sentNodes_readPipe (p : Poller) :
    p.sentNodes = p.readPipe.1.filterMap (fun pointer => pointer) ++ p.readPipe.2.sentNodes := by
  unfold sentNodes readPipe
  rw [← List.filterMap_append, List.take_append_drop]

theorem Nodes.readPipe (h : Nodes p []) :
    Nodes p.readPipe.2 (p.readPipe.1.filterMap fun pointer => pointer) := by
  have hplaces : (p.readPipe.2.places (p.readPipe.1.filterMap fun pointer => pointer)).Perm
      (p.places []) := by
    unfold places
    rw [sentNodes_readPipe p, List.nil_append]
    apply List.Perm.append_left
    generalize (p.readPipe.1.filterMap fun pointer => pointer) = taken
    calc
      (p.readPipe.2.sentNodes ++ (taken ++ handed p.log)).Perm
          ((p.readPipe.2.sentNodes ++ taken) ++ handed p.log) := by rw [List.append_assoc]
      List.Perm _ ((taken ++ p.readPipe.2.sentNodes) ++ handed p.log) :=
        List.perm_append_comm.append_right _
  refine ⟨⟨h.links.nodup, h.links.inTree, h.links.inLists, h.links.first⟩, h.running, ?_, ?_, h.table,
    h.registered, h.unmarked, ?_, h.once⟩
  · exact hplaces.nodup_iff.2 h.nodup
  · exact fun n hn => h.bounded n (hplaces.mem_iff.1 hn)
  · intro n hn
    apply h.marked n
    rw [sentNodes_readPipe]
    exact List.mem_append_right _ hn

theorem Watched.readPipe {watched : List Nat} (h : Watched p watched)
    (htaken : ∀ n ∈ watched, p.Dispatched n → some n ∉ p.pipe.take (pollerBufsize / 8)) :
    Watched p.readPipe.2 watched := by
  have hcount : p.count ≤ p.readPipe.2.count := le_rfl
  apply h.lose (p.readPipe.1.filterMap fun pointer => pointer) hcount
  · exact fun _ _ => rfl
  · exact fun _ _ => rfl
  · intro n hn halive
    rw [sentNodes_readPipe, List.mem_append] at halive
    exact halive.imp_right fun hsent => hsent.resolve_left hn
  · intro n hn hdispatched hmem
    obtain ⟨pointer, hpointer, rfl⟩ := List.mem_filterMap.1 hmem
    exact htaken n hn hdispatched hpointer

theorem Nodes.setTimer (h : Nodes p held) : Nodes p.setTimer held ∧ Keeps p p.setTimer := by
  have hsame := onlyLinks_setTimer p
  obtain ⟨timer, htimer⟩ := setTimer_eq p
  have hperm : p.setTimer.linked.Perm p.linked := by
    rw [htimer]
    exact List.Perm.refl _
  refine ⟨h.relink hsame ?_ hperm, keeps_of_onlyLinks hsame hperm⟩
  rw [htimer]
  exact ⟨h.links.nodup, h.links.inTree, h.links.inLists, h.links.first⟩

theorem keeps_log (log : List Action) : Keeps p { p with log := log } :=
  ⟨le_rfl, fun _ _ => rfl, fun _ _ => rfl, fun _ hn => hn⟩

theorem recordMessages_succ (n count : Nat) (p : Poller) :
    p.recordMessages n (count + 1) = (p.recordMessages n count).record (.message n) := by
  simp only [recordMessages, record, List.replicate_succ', List.append_assoc]

theorem Nodes.recordMessages (h : Nodes p held) (n count : Nat) :
    Nodes (p.recordMessages n count) held := by
  induction count with
  | zero =>
      simp only [Poller.recordMessages, List.replicate_zero, List.append_nil]
      exact h
  | succ count ih =>
      rw [recordMessages_succ]
      exact ih.record_other fun _ => id

theorem Nodes.removeNode (h : Nodes p held) {n : Nat} (halive : n ∈ p.linked ∨ n ∈ p.sentNodes)
    (hfd : 0 ≤ (p.node n).fd) :
    p.removeNode n = (true, p) ∨ ∃ q, p.removeNode n = (false, q) ∧ Dropped p q n := by
  unfold Poller.removeNode
  split_ifs with hremoved
  · exact .inl rfl
  · have hlinked : n ∈ p.linked := by
      obtain hlinked | hsent := halive
      · exact hlinked
      · exact absurd (h.marked n hsent) hremoved
    exact .inr ⟨_, rfl, h.links.dropped hlinked hfd⟩

end Poller

open Poller

def held : Pc → List Nat
  | .finishing n _ _ _ => [n]
  | .pipeResults pointers _ _ => pointers.filterMap fun pointer => pointer
  | .timeoutResults expired _ => expired
  | _ => []

/-- The nodes whose events the thread has not dealt with. -/
def awaited : Pc → List Nat
  | .event batch => batchNodes batch.rest
  | .removing n _ _ batch => n :: batchNodes batch.rest
  | .finishing _ _ _ batch => batchNodes batch.rest
  | .checkPipe batch => batchNodes batch.rest
  | .pipeResults _ _ batch => batchNodes batch.rest
  | .timeout batch => batchNodes batch.rest
  | .timeoutResults _ batch => batchNodes batch.rest
  | .setTimer => []
  | .wait => []
  | .returned => []

namespace Machine

structure Inv (m : Machine) : Prop where
  nodes : Nodes m.poller (held m.pc)
  watched : Watched m.poller (awaited m.pc)
  dispatched : ∀ n state error batch, m.pc = .removing n state error batch → m.poller.Dispatched n

theorem Inv.of_ne_removing {pc : Pc} {p : Poller} (hnodes : Nodes p (held pc))
    (hwatched : Watched p (awaited pc)) (hpc : ∀ n state error batch, pc ≠ .removing n state error batch) :
    Inv { pc := pc, poller := p } :=
  ⟨hnodes, hwatched, fun n state error batch heq => absurd heq (hpc n state error batch)⟩

/-- Where the thread reads the pipe in the middle of a batch, or looks for deadlines there, it does not
come upon a node that has an event further on in the batch. -/
def DeferredAt (p : Poller) : Pc → Prop
  | .checkPipe batch =>
      batch.hasPipe = true → ∀ n ∈ batchNodes batch.rest, p.Dispatched n →
        some n ∉ p.pipe.take (pollerBufsize / 8)
  | .timeout batch =>
      ∀ n ∈ batchNodes batch.rest, p.Dispatched n → n ∈ p.timeoTree ++ p.timeoList →
        ¬ timeoutCmp (p.node n).timeout batch.now < 0
  | _ => True

instance decidableDispatched (p : Poller) (n : Nat) : Decidable (p.Dispatched n) :=
  inferInstanceAs (Decidable (_ ∨ _))

instance decidableDeferredAt (p : Poller) : (pc : Pc) → Decidable (DeferredAt p pc)
  | .checkPipe batch => inferInstanceAs (Decidable (batch.hasPipe = true →
      ∀ n ∈ batchNodes batch.rest, p.Dispatched n → some n ∉ p.pipe.take (pollerBufsize / 8)))
  | .timeout batch => inferInstanceAs (Decidable (∀ n ∈ batchNodes batch.rest, p.Dispatched n →
      n ∈ p.timeoTree ++ p.timeoList → ¬ timeoutCmp (p.node n).timeout batch.now < 0))
  | .setTimer => .isTrue trivial
  | .wait => .isTrue trivial
  | .event _ => .isTrue trivial
  | .removing _ _ _ _ => .isTrue trivial
  | .finishing _ _ _ _ => .isTrue trivial
  | .pipeResults _ _ _ => .isTrue trivial
  | .timeoutResults _ _ => .isTrue trivial
  | .returned => .isTrue trivial

def Deferred (m : Machine) : Input → Prop
  | .thread _ => DeferredAt m.poller m.pc
  | .call _ => True
  | .stopMarker => True

instance decidableDeferred (m : Machine) : (input : Input) → Decidable (m.Deferred input)
  | .thread _ => decidableDeferredAt m.poller m.pc
  | .call _ => .isTrue trivial
  | .stopMarker => .isTrue trivial

def Defers (m : Machine) : List Input → Prop
  | [] => True
  | input :: rest => m.Deferred input ∧ ∀ m' ∈ m.step input, m'.Defers rest

instance decidableDefers : (m : Machine) → (inputs : List Input) → Decidable (m.Defers inputs)
  | _, [] => .isTrue trivial
  | m, input :: rest =>
      have (m' : Machine) : Decidable (m'.Defers rest) := decidableDefers m' rest
      inferInstanceAs (Decidable (m.Deferred input ∧ ∀ m' ∈ m.step input, m'.Defers rest))

/-- The calls that other threads make: all but `poller_mod` and `poller_stop`. -/
def Allowed : Input → Prop
  | .call (.mod _ _ _) => False
  | .stopMarker => False
  | _ => True

theorem Inv.call {m : Machine} (h : m.Inv) {call : Call} {p : Poller} (hallowed : Allowed (.call call))
    (hcall : m.poller.call call = some p) : ({ m with poller := p } : Machine).Inv := by
  have hkept : Nodes p (held m.pc) ∧ Keeps m.poller p := by
    cases call with
    | add data timeout now =>
        obtain ⟨result, hresult, rfl⟩ := Option.map_eq_some_iff.1 hcall
        exact h.nodes.add hresult
    | del fd =>
        obtain ⟨result, hresult, rfl⟩ := Option.map_eq_some_iff.1 hcall
        exact h.nodes.del hresult
    | mod data timeout now => exact hallowed.elim
    | setTimeout fd timeout now =>
        obtain ⟨result, hresult, rfl⟩ := Option.map_eq_some_iff.1 hcall
        exact h.nodes.setTimeout hresult
    | addTimer value now =>
        cases hcall
        exact h.nodes.addTimer value now
  refine ⟨hkept.1, h.watched.keep hkept.2, ?_⟩
  intro n state error batch hpc
  have hbounded : n < m.poller.count := by
    apply h.watched.bounded
    rw [show m.pc = _ from hpc]
    exact List.mem_cons_self ..
  unfold Dispatched
  rw [hkept.2.operation n hbounded]
  exact h.dispatched n state error batch hpc

theorem Inv.handleEvent {p : Poller} {event : EventData} {batch : Batch} (io : Io) (hnodes : Nodes p [])
    (hwatched : Watched p (batchNodes (event :: batch.rest))) :
    Inv { pc := (p.handleEvent io event batch).1, poller := (p.handleEvent io event batch).2 } := by
  cases event with
  | timer => exact .of_ne_removing hnodes hwatched (by simp [Poller.handleEvent])
  | pipe => exact .of_ne_removing hnodes hwatched (by simp [Poller.handleEvent])
  | node n =>
      have hself : n ∈ batchNodes (.node n :: batch.rest) := List.mem_cons_self ..
      have hrest : (batchNodes batch.rest).Sublist (batchNodes (.node n :: batch.rest)) :=
        List.sublist_cons_self n _
      -- a node that the thread acts on has not been handed over
      have hnew : p.Dispatched n → n ∉ handed p.log := by
        intro hdispatched
        exact (hnodes.not_handed_of_linked (hwatched.alive n hself hdispatched)).2
      simp only [Poller.handleEvent]
      split
      next hoperation =>
        have hrecord : Nodes (p.record (.handleRead n)) [] := by
          apply hnodes.record
          · exact fun _ hhands => hhands
          · rintro j rfl
            exact hnew (.inl hoperation)
        have hkeep : Watched ((p.record (.handleRead n)).recordMessages n (readLoop io.reads).1)
            (batchNodes (.node n :: batch.rest)) := hwatched.keep (keeps_log _)
        split
        · exact .of_ne_removing (hrecord.recordMessages n _) (hkeep.sublist hrest) (by simp)
        · refine ⟨hrecord.recordMessages n _, hkeep, ?_⟩
          intro j state error batch' heq
          cases heq
          exact .inl hoperation
      next hoperation =>
        have hrecord : Nodes (p.record (.handleConnect n)) [] := by
          apply hnodes.record
          · exact fun _ hhands => hhands
          · rintro j rfl
            exact hnew (.inr hoperation)
        have hkeep : Watched (p.record (.handleConnect n)) (batchNodes (.node n :: batch.rest)) :=
          hwatched.keep (keeps_log _)
        split_ifs
        · refine ⟨hrecord, hkeep, ?_⟩
          intro j state error batch' heq
          cases heq
          exact .inr hoperation
        · refine ⟨hrecord, hkeep, ?_⟩
          intro j state error batch' heq
          cases heq
          exact .inr hoperation
      · exact .of_ne_removing hnodes (hwatched.sublist hrest) (by simp)

theorem Inv.removing {p : Poller} {n : Nat} {state : ResultState} {error : Int} {batch : Batch}
    (h : Inv { pc := .removing n state error batch, poller := p }) {io : Io} {result : Pc × Poller}
    (hstep : threadStep io (.removing n state error batch) p = some result) :
    Inv { pc := result.1, poller := result.2 } := by
  have hself : n ∈ n :: batchNodes batch.rest := List.mem_cons_self ..
  have halive := h.watched.alive n hself (h.dispatched n state error batch rfl)
  have hnodes : Nodes (p.record (.removeNode n)) [] := by
    apply h.nodes.record
    · exact fun _ hhands => hhands
    · rintro j rfl
      exact (h.nodes.not_handed_of_linked halive).2
  have hwatched : Watched (p.record (.removeNode n)) (n :: batchNodes batch.rest) :=
    h.watched.keep (keeps_log _)
  have hrest := hwatched.sublist (List.sublist_cons_self n _)
  simp only [threadStep] at hstep
  obtain hremoved | ⟨q, hremoved, hdropped⟩ := hnodes.removeNode halive (h.watched.fd n hself)
  · rw [hremoved] at hstep
    cases hstep
    exact .of_ne_removing hnodes hrest (by simp)
  · rw [hremoved] at hstep
    cases hstep
    refine .of_ne_removing (hnodes.dropped hdropped) (hdropped.watched hrest ?_) (by simp)
    rintro j hj - rfl
    exact (List.nodup_cons.1 hwatched.nodup).1 hj

theorem Inv.finish {pc : Pc} {p : Poller} (h : Inv { pc := pc, poller := p }) (pc' : Pc) {n : Nat}
    (hheld : held pc = n :: held pc') (hawaited : awaited pc = awaited pc')
    (hpc : ∀ n state error batch, pc' ≠ .removing n state error batch) (state : ResultState)
    (error : Int) : Inv { pc := pc', poller := (p.setResult n state error).addResult n } := by
  have hnodes : Nodes p (n :: held pc') := hheld ▸ h.nodes
  have hwatched : Watched p (awaited pc') := hawaited ▸ h.watched
  have hsame : OnlyLinks p (p.setResult n state error) := onlyLinks_setNode rfl rfl rfl rfl
  have hkeeps : Keeps p (p.setResult n state error) := Nodes.keeps_of_onlyLinks hsame (List.Perm.refl _)
  refine .of_ne_removing (hnodes.setResult n state error).addResult ?_ hpc
  exact (hwatched.keep hkeeps).keep (keeps_log _)

theorem Inv.threadStep {m : Machine} (h : m.Inv) {io : Io} (hdeferred : DeferredAt m.poller m.pc)
    {result : Pc × Poller} (hstep : threadStep io m.pc m.poller = some result) :
    Inv { pc := result.1, poller := result.2 } := by
  obtain ⟨pc, p⟩ := m
  cases pc with
  | setTimer =>
      cases hstep
      have hnodes : Nodes (p.record .setTimer) [] := h.nodes.record_other fun _ => id
      have hwatched : Watched (p.record .setTimer) [] := h.watched.keep (keeps_log _)
      exact .of_ne_removing hnodes.setTimer.1 (hwatched.keep hnodes.setTimer.2) (by simp)
  | wait =>
      obtain ⟨events, hevents, rfl⟩ := Option.map_eq_some_iff.1 hstep
      refine .of_ne_removing ?_ ?_ (by simp)
      · exact h.nodes.record_other fun _ => id
      · exact (h.nodes.watched_readyEvents hevents).keep (keeps_log _)
  | event batch =>
      obtain ⟨now, rest, hasPipe⟩ := batch
      cases rest with
      | nil =>
          cases hstep
          exact .of_ne_removing h.nodes h.watched (by simp)
      | cons event rest =>
          cases hstep
          exact .handleEvent io h.nodes h.watched
  | removing n state error batch => exact h.removing hstep
  | finishing n state error batch =>
      cases hstep
      exact h.finish (.checkPipe batch) rfl rfl (by simp) state error
  | checkPipe batch =>
      simp only [Kernel.threadStep] at hstep
      split_ifs at hstep with hpipe hempty
      · cases hstep
        refine .of_ne_removing ?_ ?_ (by simp)
        · exact h.nodes.readPipe.record_other fun _ => id
        · refine (h.watched.readPipe ?_).keep (keeps_log _)
          intro n hn hdispatched
          exact hdeferred hpipe n hn hdispatched
      · cases hstep
        exact .of_ne_removing h.nodes h.watched (by simp)
  | pipeResults pointers stop batch =>
      cases pointers with
      | nil =>
          simp only [Kernel.threadStep] at hstep
          split_ifs at hstep
          · cases hstep
            exact .of_ne_removing h.nodes (h.watched.sublist (List.nil_sublist _)) (by simp)
          · cases hstep
            exact .of_ne_removing h.nodes h.watched (by simp)
      | cons pointer rest =>
          cases pointer with
          | none =>
              cases hstep
              exact .of_ne_removing h.nodes h.watched (by simp)
          | some n =>
              cases hstep
              have hnodes : Nodes p (n :: rest.filterMap fun pointer => pointer) := h.nodes
              exact .of_ne_removing hnodes.addResult (h.watched.keep (keeps_log _)) (by simp)
  | timeout batch =>
      cases hstep
      refine .of_ne_removing (h.nodes.expire batch.now) ?_ (by simp)
      apply (h.nodes.links.droppedAll_expire batch.now).watched h.watched
      intro n hn hdispatched hexpired
      obtain ⟨hmem, hpast⟩ := h.nodes.links.mem_expire hexpired
      exact hdeferred n hn hdispatched hmem hpast
  | timeoutResults expired batch =>
      cases expired with
      | nil =>
          cases hstep
          exact .of_ne_removing h.nodes h.watched (by simp)
      | cons n rest =>
          cases hstep
          exact h.finish (.timeoutResults rest batch) rfl rfl (by simp) .error etimedout
  | returned => cases hstep

theorem Inv.step {m m' : Machine} (h : m.Inv) {input : Input} (hallowed : Allowed input)
    (hdeferred : m.Deferred input) (hstep : m.step input = some m') : m'.Inv := by
  cases input with
  | call call =>
      obtain ⟨p, hcall, rfl⟩ := Option.map_eq_some_iff.1 hstep
      exact h.call hallowed hcall
  | stopMarker => exact hallowed.elim
  | thread io =>
      obtain ⟨result, hthread, rfl⟩ := Option.map_eq_some_iff.1 hstep
      exact h.threadStep hdeferred hthread

theorem Inv.run {m m' : Machine} (h : m.Inv) {inputs : List Input}
    (hallowed : ∀ input ∈ inputs, Allowed input) (hdefers : m.Defers inputs)
    (hrun : m.run inputs = some m') : m'.Inv := by
  induction inputs generalizing m with
  | nil =>
      cases hrun
      exact h
  | cons input rest ih =>
      obtain ⟨next, hstep, hrest⟩ := Option.bind_eq_some_iff.1 hrun
      obtain ⟨hdeferred, hlater⟩ := hdefers
      have hnext := h.step (hallowed input (List.mem_cons_self ..)) hdeferred hstep
      exact ih hnext (fun i hi => hallowed i (List.mem_cons_of_mem _ hi)) (hlater next hstep) hrest

theorem inv_startedMachine (fds : Descriptors) (maxOpenFiles : Nat) :
    (startedMachine fds maxOpenFiles).Inv := by
  have hempty : ∀ fd n, (startedPoller fds maxOpenFiles).nodes fd ≠ .node n := by
    intro fd n
    simp only [startedPoller]
    split_ifs <;> simp
  refine .of_ne_removing ?_ ?_ (by simp)
  · constructor
    · exact ⟨List.nodup_nil, by simp [startedPoller], by simp [startedPoller], rfl⟩
    · rfl
    · exact List.nodup_nil
    · intro n hn
      cases hn
    · exact fun fd n hn => absurd hn (hempty fd n)
    · intro fd n event hn
      simp only [startedPoller] at hn
      split_ifs at hn <;> cases hn
    · intro n hn
      cases hn
    · intro n hn
      cases hn
    · exact List.Pairwise.nil
  · constructor <;> simp [awaited]

/-- In every run whose steps leave the nodes of the batch alone until their events have come, each node
is handed over at most once and is left alone afterwards. -/
theorem handedOverOnce_of_defers {fds : Descriptors} {maxOpenFiles : Nat} {inputs : List Input}
    {m : Machine} (hallowed : ∀ input ∈ inputs, Allowed input)
    (hdefers : (startedMachine fds maxOpenFiles).Defers inputs)
    (hrun : (startedMachine fds maxOpenFiles).run inputs = some m) : HandedOverOnce m.poller.log :=
  ((inv_startedMachine fds maxOpenFiles).run hallowed hdefers hrun).nodes.once

/-- Two connections are closed by their peers, long before their deadlines. -/
def closedRun : List Input :=
  [.call (.add ⟨.read, 7⟩ 10 ⟨0, 0⟩), .call (.add ⟨.read, 8⟩ 10 ⟨0, 0⟩), .thread (readyIo []),
    .thread (readyIo [7, 8]), .thread { readyIo [] with reads := [.closed] }, .thread (readyIo []),
    .thread (readyIo []), .thread (readyIo []), .thread (readyIo []), .thread (readyIo []),
    .thread { readyIo [] with reads := [.closed] }, .thread (readyIo []), .thread (readyIo [])]

theorem handedOverOnce_closedRun :
    ∃ m, (startedMachine someDescriptors 0).run closedRun = some m ∧ handed m.poller.log = [0, 1]
      ∧ HandedOverOnce m.poller.log := by
  have hhanded : ((startedMachine someDescriptors 0).run closedRun).map (fun m => handed m.poller.log)
      = some [0, 1] := by decide
  obtain ⟨m, hm, hmhanded⟩ := Option.map_eq_some_iff.1 hhanded
  refine ⟨m, hm, hmhanded, handedOverOnce_of_defers ?_ ?_ hm⟩
  · simp [closedRun, Allowed]
  · decide

/-- The timer goes off and the connection has something to read, both in one batch. The deadline of the
connection has passed. -/
def lateReadRun : List Input :=
  [.call (.add ⟨.read, 7⟩ 10 ⟨0, 0⟩), .thread (readyIo []),
    .thread { readyIo [4, 7] with now := ⟨1, 0⟩ }, .thread (readyIo []), .thread (readyIo []),
    .thread (readyIo []), .thread (readyIo []),
    .thread (readyIo []), .thread (readyIo [])]

theorem not_handedOverOnce_lateReadRun :
    (∀ input ∈ lateReadRun, Allowed input)
      ∧ ∃ m, (startedMachine someDescriptors 0).run lateReadRun = some m
        ∧ ¬ HandedOverOnce m.poller.log := by
  have hlog : ((startedMachine someDescriptors 0).run lateReadRun).map (fun m => m.poller.log)
      = some [.setTimer, .wait [.timer, .node 0], .addResult 0 (some .error) (some 110),
        .handleRead 0] := by decide
  obtain ⟨m, hm, hmlog⟩ := Option.map_eq_some_iff.1 hlog
  refine ⟨by simp [lateReadRun, Allowed], m, hm, ?_⟩
  rw [hmlog]
  intro honce
  have hread := List.pairwise_iff_getElem.1 honce 2 3 (by simp) (by simp) (by simp)
  exact hread 0 rfl rfl

end Machine

end WorkflowModel.Kernel
