import WorkflowModel.Proof.PollerLinks
import Mathlib.Order.Nat

/-!
# The table and the registration

A descriptor should be registered with `epoll` exactly while the table has a node for it, with a pointer
to this node and its events. Every operation keeps this, except `poller_mod`: it replaces the node in the
table and leaves the registration, so `epoll` goes on to deliver the old node.
-/

namespace WorkflowModel.Kernel.Poller

def TableAgrees (p : Poller) : Prop :=
  ∀ fd, p.nodes fd ≠ .reserved →
    ((∃ n, p.nodes fd = .node n) ↔ p.interest fd ≠ none)
      ∧ ∀ n, p.nodes fd = .node n → p.interest fd = some (.node n, (p.node n).event)

def TableBounded (p : Poller) : Prop := ∀ fd n, p.nodes fd = .node n → n < p.count

def Agrees (p : Poller) (slot : Slot) (registered : Option (EventData × Nat)) : Prop :=
  match slot with
  | .empty => registered = none
  | .reserved => True
  | .node n => registered = some (.node n, (p.node n).event)

theorem tableAgrees_iff (p : Poller) :
    TableAgrees p ↔ ∀ fd, Agrees p (p.nodes fd) (p.interest fd) := by
  apply forall_congr'
  intro fd
  cases hslot : p.nodes fd with
  | empty => simp [Agrees, eq_comm]
  | reserved => simp [Agrees]
  | node n =>
      simp only [Agrees]
      constructor
      · exact fun h => (h (by simp)).2 n rfl
      · intro h _
        simp [h]

structure Table (p : Poller) : Prop where
  agrees : ∀ fd, Agrees p (p.nodes fd) (p.interest fd)
  bounded : TableBounded p

/-- The invariant reads the table, the registration and the events of the nodes only. -/
theorem Table.congr {p q : Poller} (h : Table p) (hnodes : q.nodes = p.nodes)
    (hinterest : q.interest = p.interest) (hcount : p.count ≤ q.count)
    (hevent : ∀ n, n < p.count → (q.node n).event = (p.node n).event) : Table q := by
  constructor
  · intro fd
    have hfd := h.agrees fd
    rw [hnodes, hinterest]
    cases hslot : p.nodes fd with
    | node n =>
        rw [hslot] at hfd
        simp only [Agrees] at hfd ⊢
        rw [hfd, hevent n (h.bounded fd n hslot)]
    | empty =>
        rw [hslot] at hfd
        exact hfd
    | reserved => trivial
  · intro fd n hn
    rw [hnodes] at hn
    exact Nat.lt_of_lt_of_le (h.bounded fd n hn) hcount

theorem Table.of_onlyLinks {p q : Poller} (h : Table p) (hq : OnlyLinks p q) : Table q :=
  h.congr hq.nodes hq.interest hq.count.ge fun n _ => hq.event n

theorem Table.setNode {p : Poller} (h : Table p) {n : Nat} {node : PollerNode}
    (hevent : node.event = (p.node n).event) : Table (p.setNode n node) :=
  h.congr rfl rfl le_rfl fun j _ => setNode_field PollerNode.event hevent j

/-- An entry is cleared and its descriptor is no longer registered. -/
theorem Table.clear {p : Poller} (h : Table p) (fd : Nat) : Table ((p.setSlot fd .empty).delFd fd) := by
  constructor
  · intro k
    simp only [setSlot, delFd]
    by_cases hk : k = fd
    · rw [hk, Function.update_self, Function.update_self]
      exact rfl
    · rw [Function.update_of_ne hk, Function.update_of_ne hk]
      exact h.agrees k
  · intro k n hn
    simp only [setSlot, delFd] at hn ⊢
    by_cases hk : k = fd
    · rw [hk, Function.update_self] at hn
      cases hn
    · rw [Function.update_of_ne hk] at hn
      exact h.bounded k n hn

theorem Table.forget {p : Poller} (h : Table p) (fd : Int) : Table (p.forget fd) := by
  unfold Poller.forget
  split_ifs
  · exact h.clear fd.toNat
  · exact h

theorem Table.alloc {p : Poller} (h : Table p) (node : PollerNode) : Table (p.alloc node) :=
  h.congr rfl rfl (Nat.le_succ _) fun _ hn => by
    simp only [Poller.alloc]
    rw [Function.update_of_ne (Nat.ne_of_lt hn)]

theorem Table.install {p : Poller} (h : Table p) (fd : Nat) (node : PollerNode) :
    Table (((p.alloc node).addFd fd node.event (.node p.count)).setSlot fd (.node p.count)) := by
  have halloc := h.alloc node
  constructor
  · intro k
    simp only [addFd, setSlot]
    by_cases hk : k = fd
    · rw [hk, Function.update_self, Function.update_self]
      simp [Agrees, Poller.alloc]
    · rw [Function.update_of_ne hk, Function.update_of_ne hk]
      exact halloc.agrees k
  · intro k n hn
    simp only [addFd, setSlot] at hn ⊢
    by_cases hk : k = fd
    · rw [hk, Function.update_self] at hn
      cases hn
      exact Nat.lt_succ_self _
    · rw [Function.update_of_ne hk] at hn
      exact halloc.bounded k n hn

/-- What happens to the table and the registration: a call, the removal of a node after I/O or the expiry
of deadlines. -/
inductive Op where
  | call (call : Call)
  | removeNode (n : Nat)
  | handleTimeout (now : Timespec)

/-- A node that is removed after I/O has been created for a descriptor. -/
def operate (p : Poller) : Op → Option Poller
  | .call call => p.call call
  | .removeNode n => if n < p.count ∧ 0 ≤ (p.node n).fd then some (p.removeNode n).2 else none
  | .handleTimeout now => some (p.expire now).2

def operateAll (p : Poller) : List Op → Option Poller
  | [] => some p
  | op :: rest => (p.operate op).bind fun p => p.operateAll rest

def Replaces (p : Poller) : Op → Prop
  | .call (.mod data _ _) =>
      p.fdError data.fd = none ∧ dataGetEvent data.operation ≠ none
        ∧ ∃ old, p.nodes data.fd.toNat = .node old
  | _ => False

theorem Table.retire {p : Poller} (h : Table p) (n : Nat) (state : ResultState) :
    Table (p.retire n state) := by
  have hresult : Table (p.setResult n state 0) := h.setNode rfl
  unfold Poller.retire
  simp only []
  split_ifs
  · exact hresult.congr rfl rfl le_rfl fun _ _ => rfl
  · have hremoved : Table ((p.setResult n state 0).setNode n
        { (p.setResult n state 0).node n with removed := true }) := hresult.setNode rfl
    exact hremoved.congr rfl rfl le_rfl fun _ _ => rfl

theorem Table.add {p : Poller} (h : Table p) {data : PollerData} {timeout : Int} {now : Timespec}
    {result : Except Errno Unit × Poller} (hadd : p.add data timeout now = some result) :
    Table result.2 := by
  obtain ⟨heq, -⟩ | ⟨event, -, -, -, heq⟩ := add_cases hadd
  · rw [heq]
    exact h
  · rw [heq]
    -- the node is linked between the registration and the entry in the table
    have hplace := onlyLinks_place p.count (decide (0 ≤ timeout))
      ((p.alloc (newNode data.operation data.fd event (deadline now timeout))).addFd
        data.fd.toNat event (.node p.count))
    apply (h.install data.fd.toNat
      (newNode data.operation data.fd event (deadline now timeout))).congr
    · simp only [setSlot]
      rw [hplace.nodes]
      rfl
    · exact hplace.interest
    · exact hplace.count.ge
    · exact fun n _ => hplace.event n

theorem Table.del {p : Poller} (h : Table p) {fd : Int} {result : Except Errno Unit × Poller}
    (hdel : p.del fd = some result) : Table result.2 := by
  obtain ⟨heq, -⟩ | ⟨n, -, -, heq⟩ := del_cases hdel
  · rw [heq]
    exact h
  · rw [heq]
    apply Table.retire
    have hunlink := onlyLinks_unlink n (p.setSlot fd.toNat .empty)
    apply (h.clear fd.toNat).congr
    · exact hunlink.nodes
    · simp only [delFd]
      rw [hunlink.interest]
    · exact hunlink.count.ge
    · exact fun j _ => hunlink.event j

theorem Table.setTimeout {p : Poller} (h : Table p) {fd timeout : Int} {now : Timespec}
    {result : Except Errno Unit × Poller} (hset : p.setTimeout fd timeout now = some result) :
    Table result.2 := by
  obtain ⟨heq, -⟩ | ⟨n, -, -, heq⟩ := setTimeout_cases hset
  · rw [heq]
    exact h
  · rw [heq]
    have hunlinked := h.of_onlyLinks (onlyLinks_unlink n p)
    apply Table.of_onlyLinks _ (onlyLinks_place n _ _)
    split_ifs
    · exact hunlinked.setNode rfl
    · exact hunlinked

theorem Table.removeNode {p : Poller} (h : Table p) (n : Nat) : Table (p.removeNode n).2 := by
  unfold Poller.removeNode
  split_ifs
  · exact h
  · have hunlink := onlyLinks_unlink n (p.setSlot (p.node n).fd.toNat .empty)
    apply (h.clear (p.node n).fd.toNat).congr
    · exact hunlink.nodes
    · simp only [delFd]
      rw [hunlink.interest]
      rfl
    · exact hunlink.count.ge
    · exact fun j _ => hunlink.event j

theorem Table.expireList {p : Poller} (h : Table p) (now : Timespec) (l : List Nat) :
    Table (expireList now l p).2 := by
  induction l generalizing p with
  | nil => exact h
  | cons n rest ih =>
      simp only [Poller.expireList]
      split_ifs
      · exact ih ((h.forget (p.node n).fd).congr rfl rfl le_rfl fun _ _ => rfl)
      · exact h

theorem Table.expireTree {p : Poller} (h : Table p) (now : Timespec) (fuel : Nat) :
    Table (expireTree now fuel p).2 := by
  induction fuel generalizing p with
  | zero => exact h
  | succ fuel ih =>
      simp only [Poller.expireTree]
      split
      · exact h
      next n _ =>
        split_ifs
        · exact ih ((h.forget (p.node n).fd).congr rfl rfl le_rfl fun _ _ => rfl)
        · exact h

theorem Table.call {p q : Poller} (h : Table p) {call : Call} (hcall : p.call call = some q)
    (hreplaces : ¬ p.Replaces (.call call)) : Table q := by
  revert hreplaces
  apply call_keeps (P := fun call q => ¬ p.Replaces (.call call) → Table q) hcall
  · intro data timeout now result hadd _
    exact h.add hadd
  · intro fd result hdel _
    exact h.del hdel
  · intro data timeout now result hmod hreplaces
    obtain ⟨heq, -⟩ | ⟨event, old, herror, hevent, hslot, -⟩ := mod_cases hmod
    · rw [heq]
      exact h
    · exact absurd ⟨herror, by simp [hevent], old, hslot⟩ hreplaces
  · intro fd timeout now result hset _
    exact h.setTimeout hset
  · intro value now _
    exact (h.alloc _).of_onlyLinks (onlyLinks_insertNode p.count _)

theorem Table.operate {p q : Poller} (h : Table p) {op : Op} (hop : p.operate op = some q)
    (hreplaces : ¬ p.Replaces op) : Table q := by
  cases op with
  | call call => exact h.call hop hreplaces
  | removeNode n =>
      simp only [Poller.operate] at hop
      split_ifs at hop
      cases hop
      exact h.removeNode n
  | handleTimeout now =>
      cases hop
      exact (h.expireList now p.timeoList).expireTree now _

theorem retire_frame (n : Nat) (state : ResultState) (p : Poller) :
    (p.retire n state).nodes = p.nodes ∧ (p.retire n state).interest = p.interest
      ∧ (p.retire n state).count = p.count := by
  unfold Poller.retire
  simp only []
  split_ifs <;> exact ⟨rfl, rfl, rfl⟩

theorem mod_of_node {p : Poller} {data : PollerData} {event old : Nat} (timeout : Int)
    (now : Timespec) (herror : p.fdError data.fd = none)
    (hevent : dataGetEvent data.operation = some event)
    (hold : p.nodes data.fd.toNat = .node old) :
    let retired := (p.unlink old).retire old .modified
    p.mod data timeout now = some (.ok (),
      ((retired.alloc (newNode data.operation data.fd event (deadline now timeout))).place retired.count
        (0 ≤ timeout)).setSlot data.fd.toNat (.node retired.count)) := by
  simp only [Poller.mod, herror, hevent, hold]

theorem Table.not_agrees_of_replaces {p : Poller} (h : Table p) {op : Op} (hreplaces : p.Replaces op) :
    ∃ q, p.operate op = some q ∧ ¬ TableAgrees q := by
  cases op with
  | call call =>
      cases call with
      | mod data timeout now =>
          obtain ⟨herror, hevent, old, hold⟩ := hreplaces
          obtain ⟨event, hevent⟩ := Option.ne_none_iff_exists'.1 hevent
          have hregistered := h.agrees data.fd.toNat
          have hlt := h.bounded data.fd.toNat old hold
          rw [hold] at hregistered
          -- the registration is the one from before, the entry is the new node
          have hunlink := onlyLinks_unlink old p
          obtain ⟨-, hinterest, hcount⟩ := retire_frame old .modified (p.unlink old)
          rw [hunlink.interest] at hinterest
          rw [hunlink.count] at hcount
          refine ⟨_, congrArg (Option.map Prod.snd) (mod_of_node timeout now herror hevent hold), ?_⟩
          intro hagrees
          have hnew := (tableAgrees_iff _).1 hagrees data.fd.toNat
          simp only [setSlot, Function.update_self, Agrees] at hnew
          rw [(onlyLinks_place _ _ _).interest] at hnew
          simp only [Poller.alloc, hinterest] at hnew
          rw [hregistered, Option.some.injEq, Prod.mk.injEq, EventData.node.injEq, hcount] at hnew
          exact Nat.ne_of_lt hlt hnew.1
      | _ => exact hreplaces.elim
  | _ => exact hreplaces.elim

def NeverReplaces : Poller → List Op → Prop
  | _, [] => True
  | p, op :: rest => ¬ p.Replaces op ∧ ∀ q, p.operate op = some q → NeverReplaces q rest

theorem Table.always_agrees_iff {p : Poller} (h : Table p) (ops : List Op) :
    (∀ k q, p.operateAll (ops.take k) = some q → TableAgrees q) ↔ NeverReplaces p ops := by
  induction ops generalizing p with
  | nil =>
      simp only [List.take_nil, NeverReplaces, iff_true]
      intro _ q hq
      cases hq
      exact (tableAgrees_iff p).2 h.agrees
  | cons op rest ih =>
      by_cases hreplaces : p.Replaces op
      · obtain ⟨q, hq, hbad⟩ := h.not_agrees_of_replaces hreplaces
        refine iff_of_false ?_ fun hnever => hnever.1 hreplaces
        intro hall
        apply hbad
        apply hall 1 q
        simp [operateAll, hq]
      · simp only [NeverReplaces, hreplaces, not_false_eq_true, true_and]
        constructor
        · intro hall q hq
          rw [← ih (h.operate hq hreplaces)]
          intro k r hr
          apply hall (k + 1) r
          simpa [operateAll, hq] using hr
        · intro hnever k q hq
          cases k with
          | zero =>
              cases hq
              exact (tableAgrees_iff p).2 h.agrees
          | succ k =>
              obtain ⟨next, hnext, hrest⟩ := Option.bind_eq_some_iff.1 hq
              exact (ih (h.operate hnext hreplaces)).2 (hnever next hnext) k q hrest

theorem table_startedPoller (fds : Descriptors) (maxOpenFiles : Nat) :
    Table (startedPoller fds maxOpenFiles) := by
  constructor
  · intro fd
    simp only [startedPoller]
    split_ifs with hreserved htimer hpipe <;> simp_all [Agrees]
  · intro fd n hn
    simp only [startedPoller] at hn
    split_ifs at hn

/-- The table and the registration agree in every state of a run exactly if no step of it replaces a node
of the table. -/
theorem tableAgrees_iff_neverReplaces (fds : Descriptors) (maxOpenFiles : Nat) (ops : List Op) :
    (∀ k q, (startedPoller fds maxOpenFiles).operateAll (ops.take k) = some q → TableAgrees q)
      ↔ NeverReplaces (startedPoller fds maxOpenFiles) ops :=
  (table_startedPoller fds maxOpenFiles).always_agrees_iff ops

/-- A node for the descriptor 7 that waits for input is replaced by one that waits for a connection. -/
def replacingRun : List Op :=
  [.call (.add ⟨.read, 7⟩ (-1) ⟨0, 0⟩), .call (.mod ⟨.connect, 7⟩ (-1) ⟨0, 0⟩)]

theorem not_tableAgrees_replacingRun :
    ∃ q, (startedPoller ⟨3, 4, 5, 6, by decide⟩ 0).operateAll replacingRun = some q
      ∧ ¬ TableAgrees q := by
  have hrun : ((startedPoller ⟨3, 4, 5, 6, by decide⟩ 0).operateAll replacingRun).map
      (fun q => (q.nodes 7, q.interest 7)) = some (.node 1, some (.node 0, epollin ||| epollet)) := by
    decide
  obtain ⟨q, hq, hslot⟩ := Option.map_eq_some_iff.1 hrun
  refine ⟨q, hq, ?_⟩
  intro hagrees
  rw [Prod.mk.injEq] at hslot
  have hregistered := (hagrees 7 (by simp [hslot.1])).2 1 hslot.1
  rw [hslot.2] at hregistered
  simp at hregistered

end WorkflowModel.Kernel.Poller
