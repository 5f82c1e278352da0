import WorkflowModel.Proof.PollerTimers

/-!
# Exact expiry

The operations on the poller, with the deadlines that they ask for beside it. Every operation keeps the
two structures and the table in step with these deadlines, so `__poller_handle_timeout` hands over exactly
the nodes that are due.
-/

namespace WorkflowModel.Kernel.Poller

open SearchTree

/-- `__poller_handle_timeout` from the lock to the last result. -/
def handleTimeout (now : Timespec) (p : Poller) : Poller :=
  let result := p.expire now
  result.1.foldl (fun p n => (p.setResult n .error etimedout).addResult n) result.2

/-- A node is removed after I/O as long as the poller owns it: it is linked, or a user has marked it. One
that has been handed over may be freed. -/
def perform (p : Poller) : Op → Option Poller
  | .call call => p.call call
  | .removeNode n =>
      if 0 ≤ (p.node n).fd ∧ (n ∈ p.linked ∨ (p.node n).removed = true) then some (p.removeNode n).2
      else none
  | .handleTimeout now => some (p.handleTimeout now)

/-- The deadlines of the live nodes after an operation on `p`. -/
def armedAfter (p : Poller) (armed : Nat → Option Timespec) : Op → Nat → Option Timespec
  | .call (.add data timeout now) =>
      match p.fdError data.fd, dataGetEvent data.operation, p.nodes data.fd.toNat with
      | none, some _, .empty => Function.update armed p.count (deadlineOf timeout now)
      | _, _, _ => armed
  | .call (.del fd) =>
      match p.fdError fd, p.nodes fd.toNat with
      | none, .node n => Function.update armed n none
      | _, _ => armed
  | .call (.mod data timeout now) =>
      match p.fdError data.fd, dataGetEvent data.operation, p.nodes data.fd.toNat with
      | none, some _, .node old =>
          Function.update (Function.update armed old none) p.count (deadlineOf timeout now)
      | _, _, _ => armed
  | .call (.setTimeout fd timeout now) =>
      match p.fdError fd, p.nodes fd.toNat with
      | none, .node n => Function.update armed n (deadlineOf timeout now)
      | _, _ => armed
  | .call (.addTimer value now) =>
      Function.update armed p.count (some (carry ⟨now.sec + value.sec, now.nsec + value.nsec⟩))
  | .removeNode n => if (p.node n).removed then armed else Function.update armed n none
  | .handleTimeout now => fun n => (armed n).filter fun d => !decide (timeoutCmp d now < 0)

def performAll (p : Poller) (armed : Nat → Option Timespec) :
    List Op → Option (Poller × (Nat → Option Timespec))
  | [] => some (p, armed)
  | op :: rest => (p.perform op).bind fun q => q.performAll (p.armedAfter armed op) rest

/-- The table has an entry for every node that is linked and watches a descriptor, and no other. -/
structure Tracked (p : Poller) (armed : Nat → Option Timespec) : Prop extends Queued p armed where
  table : ∀ fd n, p.nodes fd = .node n ↔ n ∈ p.linked ∧ (p.node n).fd = (fd : Int)

section Operations

variable {p q : Poller} {armed : Nat → Option Timespec}

/-! A call that reports an error changes no deadline. -/

theorem armedAfter_add {data : PollerData} {timeout : Int} {now : Timespec}
    (h : p.fdError data.fd = none → p.nodes data.fd.toNat ≠ .empty) :
    p.armedAfter armed (.call (.add data timeout now)) = armed := by
  simp only [armedAfter]
  split
  next herror _ hslot => exact absurd hslot (h herror)
  · rfl

theorem armedAfter_del {fd : Int} (h : p.fdError fd = none → ∀ n, p.nodes fd.toNat ≠ .node n) :
    p.armedAfter armed (.call (.del fd)) = armed := by
  simp only [armedAfter]
  split
  next n herror hslot => exact absurd hslot (h herror n)
  · rfl

theorem armedAfter_mod {data : PollerData} {timeout : Int} {now : Timespec}
    (h : p.fdError data.fd = none → ∀ n, p.nodes data.fd.toNat ≠ .node n) :
    p.armedAfter armed (.call (.mod data timeout now)) = armed := by
  simp only [armedAfter]
  split
  next old herror _ hslot => exact absurd hslot (h herror old)
  · rfl

theorem armedAfter_setTimeout {fd timeout : Int} {now : Timespec}
    (h : p.fdError fd = none → ∀ n, p.nodes fd.toNat ≠ .node n) :
    p.armedAfter armed (.call (.setTimeout fd timeout now)) = armed := by
  simp only [armedAfter]
  split
  next n herror hslot => exact absurd hslot (h herror n)
  · rfl

/-- A node leaves its structure and the table. -/
theorem Tracked.leave (h : Tracked p armed) {fd n : Nat} (hn : n ∈ p.linked)
    (hfd : (p.node n).fd = (fd : Int)) :
    Tracked ((p.setSlot fd .empty).unlink n) (Function.update armed n none) := by
  have hslot : Queued (p.setSlot fd .empty) armed :=
    h.toQueued.congr rfl rfl rfl rfl le_rfl (fun _ _ => rfl) fun _ _ => rfl
  have hunlink := onlyLinks_unlink n (p.setSlot fd .empty)
  refine ⟨hslot.unlink hn, ?_⟩
  intro k j
  rw [hunlink.nodes, hunlink.fd, hslot.links.mem_unlink hn]
  change Function.update p.nodes fd .empty k = .node j
    ↔ (j ∈ p.linked ∧ j ≠ n) ∧ (p.node j).fd = (k : Int)
  by_cases hk : k = fd
  · subst hk
    rw [Function.update_self]
    refine iff_of_false (by simp) ?_
    rintro ⟨⟨hj, hne⟩, hjfd⟩
    have hsame := ((h.table k j).2 ⟨hj, hjfd⟩).symm.trans ((h.table k n).2 ⟨hn, hfd⟩)
    exact hne (Slot.node.inj hsame)
  · rw [Function.update_of_ne hk, h.table k j]
    constructor
    · rintro ⟨hj, hjfd⟩
      refine ⟨⟨hj, ?_⟩, hjfd⟩
      rintro rfl
      omega
    · exact fun hj => ⟨hj.1.1, hj.2⟩

theorem Tracked.retire (h : Tracked p armed) (n : Nat) (state : ResultState) :
    Tracked (p.retire n state) armed := by
  obtain ⟨htree, hlist, hother, -⟩ := retire_links n state p
  refine ⟨h.toQueued.retire n state, ?_⟩
  intro k j
  rw [(retire_frame n state p).1, retire_field PollerNode.fd (fun _ _ _ => rfl) (fun _ _ => rfl), linked,
    htree, hlist, hother]
  exact h.table k j

theorem Tracked.register (h : Tracked p armed) (interest : Nat → Option (EventData × Nat)) :
    Tracked { p with interest := interest } armed :=
  ⟨h.toQueued.congr rfl rfl rfl rfl le_rfl (fun _ _ => rfl) fun _ _ => rfl, h.table⟩

/-- A new node comes into an entry of the table. -/
theorem Tracked.enter {fd : Nat} (h : Tracked (p.setSlot fd .empty) armed) (node : PollerNode)
    (hfd : node.fd = (fd : Int)) (hflag : node.inRbtree = false) (timed : Bool) :
    Tracked (((p.alloc node).place p.count timed).setSlot fd (.node p.count))
      (Function.update armed p.count (if timed then some node.timeout else none)) := by
  have hqueued : Queued p armed :=
    h.toQueued.congr rfl rfl rfl rfl le_rfl (fun _ _ => rfl) fun _ _ => rfl
  have hcreate := hqueued.create node hflag timed
  have hsame := onlyLinks_place p.count timed (p.alloc node)
  have hself : (p.alloc node).node p.count = node := Function.update_self ..
  obtain ⟨-, hperm⟩ := (hqueued.alloc node).links.place hqueued.count_not_mem
    ((congrArg PollerNode.inRbtree hself).trans hflag) timed
  refine ⟨hcreate.congr rfl rfl rfl rfl le_rfl (fun _ _ => rfl) fun _ _ => rfl, ?_⟩
  intro k j
  change Function.update ((p.alloc node).place p.count timed).nodes fd (.node p.count) k = .node j
    ↔ j ∈ ((p.alloc node).place p.count timed).linked
      ∧ (((p.alloc node).place p.count timed).node j).fd = (k : Int)
  have hold : ∀ j, j ∈ p.linked → (p.alloc node).node j = p.node j := fun j hj =>
    Function.update_of_ne (Nat.ne_of_lt (h.bounded j hj)) ..
  have htable : ∀ j, j ∈ p.linked →
      (Function.update p.nodes fd .empty k = .node j ↔ (p.node j).fd = (k : Int)) := fun j hj =>
    (h.table k j).trans (and_iff_right hj)
  rw [hsame.fd, hsame.nodes, hperm.mem_iff, List.mem_cons]
  change Function.update p.nodes fd (.node p.count) k = .node j
    ↔ (j = p.count ∨ j ∈ p.linked) ∧ _
  by_cases hk : k = fd
  · subst hk
    rw [Function.update_self, Slot.node.injEq]
    constructor
    · rintro rfl
      exact ⟨.inl rfl, by rw [hself, hfd]⟩
    · rintro ⟨rfl | hj, hjfd⟩
      · rfl
      · rw [hold j hj, ← htable j hj, Function.update_self] at hjfd
        cases hjfd
  · rw [Function.update_of_ne hk]
    have hother := h.table k j
    change Function.update p.nodes fd .empty k = .node j ↔ j ∈ p.linked ∧ _ at hother
    rw [Function.update_of_ne hk] at hother
    rw [hother]
    constructor
    · rintro ⟨hj, hjfd⟩
      exact ⟨.inr hj, by rw [hold j hj]; exact hjfd⟩
    · rintro ⟨rfl | hj, hjfd⟩
      · rw [hself, hfd] at hjfd
        omega
      · rw [hold j hj] at hjfd
        exact ⟨hj, hjfd⟩

theorem deadlineOf_eq (timeout : Int) (now : Timespec) (node : PollerNode)
    (h : node.timeout = deadline now timeout) :
    (if decide (0 ≤ timeout) = true then some node.timeout else none) = deadlineOf timeout now := by
  rw [h, deadlineOf]
  simp only [decide_eq_true_eq]

theorem Tracked.add (h : Tracked p armed) {data : PollerData} {timeout : Int} {now : Timespec}
    {result : Except Errno Unit × Poller} (hadd : p.add data timeout now = some result) :
    Tracked result.2 (p.armedAfter armed (.call (.add data timeout now))) := by
  obtain ⟨heq, hkept⟩ | ⟨event, herror, hevent, hslot, heq⟩ := add_cases hadd
  · rw [heq, armedAfter_add hkept]
    exact h
  · rw [heq]
    have hfd : data.fd = (data.fd.toNat : Int) := (Int.toNat_of_nonneg (fdError_eq_none herror)).symm
    have hsame : p.setSlot data.fd.toNat .empty = p := by
      rw [setSlot, ← hslot, Function.update_eq_self]
    have henter := Tracked.enter (p := p.addFd data.fd.toNat event (.node p.count))
      (Tracked.register (hsame.symm ▸ h) _)
      (newNode data.operation data.fd event (deadline now timeout)) hfd rfl (decide (0 ≤ timeout))
    rw [deadlineOf_eq timeout now _ rfl] at henter
    simp only [armedAfter, herror, hevent, hslot]
    exact henter

theorem Tracked.del (h : Tracked p armed) {fd : Int} {result : Except Errno Unit × Poller}
    (hdel : p.del fd = some result) : Tracked result.2 (p.armedAfter armed (.call (.del fd))) := by
  obtain ⟨heq, hkept⟩ | ⟨n, herror, hslot, heq⟩ := del_cases hdel
  · rw [heq, armedAfter_del hkept]
    exact h
  · rw [heq]
    obtain ⟨hmem, hfd⟩ := (h.table fd.toNat n).1 hslot
    simp only [armedAfter, herror, hslot]
    exact ((h.leave hmem hfd).register _).retire n .deleted

theorem unlink_setSlot (n fd : Nat) (slot : Slot) (p : Poller) :
    (p.setSlot fd slot).unlink n = (p.unlink n).setSlot fd slot := by
  unfold Poller.unlink
  change (if (p.node n).inRbtree = true then _ else _) = Poller.setSlot fd slot (if _ then _ else _)
  split_ifs <;> rfl

theorem Tracked.mod (h : Tracked p armed) {data : PollerData} {timeout : Int} {now : Timespec}
    {result : Except Errno Unit × Poller} (hmod : p.mod data timeout now = some result) :
    Tracked result.2 (p.armedAfter armed (.call (.mod data timeout now))) := by
  obtain ⟨heq, hkept⟩ | ⟨event, old, herror, hevent, hslot, heq⟩ := mod_cases hmod
  · rw [heq, armedAfter_mod hkept]
    exact h
  · rw [heq]
    obtain ⟨hmem, hfd⟩ := (h.table data.fd.toNat old).1 hslot
    have hcount : ((p.unlink old).retire old .modified).count = p.count :=
      (retire_frame old .modified _).2.2.trans (onlyLinks_unlink old p).count
    have hdata : data.fd = (data.fd.toNat : Int) :=
      (Int.toNat_of_nonneg (fdError_eq_none herror)).symm
    have hretired : Tracked (((p.unlink old).retire old .modified).setSlot data.fd.toNat .empty)
        (Function.update armed old none) := by
      have hleft := (h.leave hmem hfd).retire old .modified
      rwa [unlink_setSlot, retire_setSlot] at hleft
    have henter := hretired.enter
      (newNode data.operation data.fd event (deadline now timeout)) hdata rfl (decide (0 ≤ timeout))
    rw [deadlineOf_eq timeout now _ rfl] at henter
    simp only [armedAfter, herror, hevent, hslot]
    rw [← hcount]
    exact henter

/-- The deadline that `poller_set_timeout` writes into a node that is in no structure. -/
def redate (n : Nat) (timeout : Int) (now : Timespec) (p : Poller) : Poller :=
  if 0 ≤ timeout then p.setNode n { p.node n with timeout := deadline now timeout } else p

theorem redate_eq (n : Nat) (timeout : Int) (now : Timespec) (p : Poller) :
    ∃ node, p.redate n timeout now = p.setNode n node ∧ node.inRbtree = (p.node n).inRbtree
      ∧ node.fd = (p.node n).fd ∧ (0 ≤ timeout → node.timeout = deadline now timeout) := by
  unfold redate
  split_ifs with htimeout
  · exact ⟨_, rfl, rfl, rfl, fun _ => rfl⟩
  · refine ⟨p.node n, ?_, rfl, rfl, fun hle => absurd hle htimeout⟩
    rw [setNode, Function.update_eq_self]

theorem Queued.redate (h : Queued p armed) {n : Nat} (hmem : n ∈ p.linked) (timeout : Int)
    (now : Timespec) :
    Queued ((p.unlink n).redate n timeout now) (Function.update armed n none)
      ∧ n ∉ ((p.unlink n).redate n timeout now).linked
      ∧ n < ((p.unlink n).redate n timeout now).count
      ∧ (((p.unlink n).redate n timeout now).node n).inRbtree = false := by
  obtain ⟨-, hperm, hflag⟩ := h.links.unlink hmem
  have hout : n ∉ (p.unlink n).linked :=
    (List.nodup_cons.1 (hperm.nodup_iff.1 h.links.nodup)).1
  obtain ⟨node, hnode, hnodeFlag, -, -⟩ := redate_eq n timeout now (p.unlink n)
  rw [hnode]
  refine ⟨(h.unlink hmem).congr rfl rfl rfl rfl le_rfl ?_ ?_, hout, ?_, ?_⟩
  · exact fun j _ => setNode_field PollerNode.inRbtree hnodeFlag j
  · intro j hj
    rw [setNode_node_of_ne]
    rintro rfl
    exact hout (mem_linked_of_mem_timed hj)
  · exact Nat.lt_of_lt_of_eq (h.bounded n hmem) (onlyLinks_unlink n p).count.symm
  · rw [setNode_node_self, hnodeFlag, hflag]

/-- The node is taken out, gets its new deadline and goes back in. -/
theorem Tracked.rearm (h : Tracked p armed) {n : Nat} (hmem : n ∈ p.linked) (timeout : Int)
    (now : Timespec) :
    Tracked (((p.unlink n).redate n timeout now).place n (0 ≤ timeout))
      (Function.update armed n (deadlineOf timeout now)) := by
  obtain ⟨hdated, hout, hlt, hflag⟩ := h.toQueued.redate hmem timeout now
  obtain ⟨-, hperm, -⟩ := h.links.unlink hmem
  obtain ⟨node, hnode, -, hnodeFd, hdeadline⟩ := redate_eq n timeout now (p.unlink n)
  have hunlink := onlyLinks_unlink n p
  have hplace := hdated.place hout hlt hflag (decide (0 ≤ timeout))
  obtain ⟨-, hback⟩ := hdated.links.place hout hflag (decide (0 ≤ timeout))
  have hsame := onlyLinks_place n (decide (0 ≤ timeout)) ((p.unlink n).redate n timeout now)
  constructor
  · have hvalue : (if decide (0 ≤ timeout) = true then
          some (((p.unlink n).redate n timeout now).node n).timeout else none)
        = deadlineOf timeout now := by
      rw [hnode, setNode_node_self]
      unfold deadlineOf
      by_cases htimeout : 0 ≤ timeout
      · simp [htimeout, hdeadline htimeout]
      · simp [htimeout]
    rwa [Function.update_idem, hvalue] at hplace
  · intro k j
    rw [hsame.nodes, hsame.fd, hback.mem_iff, hnode, setNode_field PollerNode.fd hnodeFd, hunlink.fd]
    change (p.unlink n).nodes k = .node j ↔ j ∈ n :: (p.unlink n).linked ∧ _
    rw [hunlink.nodes, ← hperm.mem_iff]
    exact h.table k j

theorem Tracked.setTimeout (h : Tracked p armed) {fd timeout : Int} {now : Timespec}
    {result : Except Errno Unit × Poller} (hset : p.setTimeout fd timeout now = some result) :
    Tracked result.2 (p.armedAfter armed (.call (.setTimeout fd timeout now))) := by
  obtain ⟨heq, hkept⟩ | ⟨n, herror, hslot, heq⟩ := setTimeout_cases hset
  · rw [heq, armedAfter_setTimeout hkept]
    exact h
  · rw [heq]
    simp only [armedAfter, herror, hslot]
    exact h.rearm ((h.table fd.toNat n).1 hslot).1 timeout now

theorem Tracked.addTimer (h : Tracked p armed) (value now : Timespec) :
    Tracked (p.addTimer value now) (p.armedAfter armed (.call (.addTimer value now))) := by
  have hcreate := h.toQueued.create
    (newNode .timer (-1) 0 (carry ⟨now.sec + value.sec, now.nsec + value.nsec⟩)) rfl true
  have hsame := onlyLinks_insertNode p.count
    (p.alloc (newNode .timer (-1) 0 (carry ⟨now.sec + value.sec, now.nsec + value.nsec⟩)))
  obtain ⟨-, hperm⟩ := (h.toQueued.alloc
    (newNode .timer (-1) 0 (carry ⟨now.sec + value.sec, now.nsec + value.nsec⟩))).links.insertNode
      h.count_not_mem (by simp [Poller.alloc, newNode])
  refine ⟨hcreate, ?_⟩
  intro k j
  simp only [Poller.addTimer]
  rw [hsame.nodes, hsame.fd, hperm.mem_iff, List.mem_cons]
  change p.nodes k = .node j ↔ (j = p.count ∨ j ∈ p.linked) ∧ _
  rw [h.table k j]
  have hcount := h.count_not_mem
  by_cases hj : j = p.count
  · subst hj
    simp [hcount, Poller.alloc, newNode]
  · simp [hj, Poller.alloc]

theorem Tracked.call (h : Tracked p armed) {call : Call} (hcall : p.call call = some q) :
    Tracked q (p.armedAfter armed (.call call)) := by
  apply call_keeps (P := fun call q => Tracked q (p.armedAfter armed (.call call))) hcall
  · exact h.add
  · exact h.del
  · exact h.mod
  · exact h.setTimeout
  · exact h.addTimer

theorem Tracked.removeNode (h : Tracked p armed) {n : Nat} (hfd : 0 ≤ (p.node n).fd)
    (howned : n ∈ p.linked ∨ (p.node n).removed = true) :
    Tracked (p.removeNode n).2 (p.armedAfter armed (.removeNode n)) := by
  unfold Poller.removeNode
  simp only [armedAfter]
  split_ifs with hremoved
  · exact h
  · have hmem := howned.resolve_right hremoved
    have hleave := h.leave hmem (Int.toNat_of_nonneg hfd).symm
    exact hleave.register _

theorem post_eq (expired : List Nat) (p : Poller) :
    let q := expired.foldl (fun p n => (p.setResult n .error etimedout).addResult n) p
    q.log = p.log ++ expired.map (fun n => .addResult n (some .error) (some etimedout))
      ∧ q.timeoTree = p.timeoTree ∧ q.timeoList = p.timeoList ∧ q.noTimeoList = p.noTimeoList
      ∧ q.treeFirst = p.treeFirst ∧ q.count = p.count ∧ q.nodes = p.nodes
      ∧ ∀ j, (q.node j).inRbtree = (p.node j).inRbtree ∧ (q.node j).timeout = (p.node j).timeout
        ∧ (q.node j).fd = (p.node j).fd := by
  induction expired generalizing p with
  | nil => simp
  | cons n rest ih =>
      obtain ⟨hlog, htree, hlist, hother, hfirst, hcount, hnodes, hnode⟩ :=
        ih ((p.setResult n .error etimedout).addResult n)
      refine ⟨?_, htree, hlist, hother, hfirst, hcount, hnodes, ?_⟩
      · rw [List.foldl_cons, hlog]
        simp [Poller.addResult, record, Poller.setResult, setNode]
      · intro j
        rw [List.foldl_cons, (hnode j).1, (hnode j).2.1, (hnode j).2.2]
        exact ⟨setNode_field PollerNode.inRbtree (by rfl) j,
          setNode_field PollerNode.timeout (by rfl) j, setNode_field PollerNode.fd (by rfl) j⟩

theorem Tracked.handleTimeout (h : Tracked p armed) (now : Timespec) :
    Tracked (p.handleTimeout now) (p.armedAfter armed (.handleTimeout now)) := by
  obtain ⟨hexpired, -⟩ := h.toQueued.expire now
  obtain ⟨-, htree', hlist', hother', hfirst', hcount', hnodes', hnode'⟩ :=
    post_eq (p.expire now).1 (p.expire now).2
  refine ⟨(h.toQueued.expired now).congr htree' hlist' hother' hfirst' hcount'.ge
    (fun j _ => (hnode' j).1) fun j _ => (hnode' j).2.1, ?_⟩
  intro k j
  have hlinked : (p.handleTimeout now).linked = (p.expire now).2.linked := by
    rw [linked, linked]
    exact congrArg₂ _ htree' (congrArg₂ _ hlist' hother')
  have hfd : ((p.handleTimeout now).node j).fd = (p.node j).fd :=
    (hnode' j).2.2.trans (by rw [hexpired.node])
  have hnodes : (p.handleTimeout now).nodes k = (p.expire now).2.nodes k := congrFun hnodes' k
  rw [hlinked, hfd, hnodes, h.toQueued.mem_expired, hexpired.nodes k]
  split_ifs with hgone
  · obtain ⟨n, hn, hnfd⟩ := hgone
    refine iff_of_false (by simp) ?_
    rintro ⟨⟨hj, hstays⟩, hjfd⟩
    have hmem := h.toQueued.mem_linked_of_expired hn
    have hsame := ((h.table k j).2 ⟨hj, hjfd⟩).symm.trans ((h.table k n).2 ⟨hmem, hnfd⟩)
    rw [Slot.node.inj hsame] at hstays
    exact hstays hn
  · rw [h.table k j]
    constructor
    · rintro ⟨hj, hjfd⟩
      exact ⟨⟨hj, fun hj' => hgone ⟨j, hj', hjfd⟩⟩, hjfd⟩
    · exact fun hj => ⟨hj.1.1, hj.2⟩

theorem Tracked.perform (h : Tracked p armed) {op : Op} (hop : p.perform op = some q) :
    Tracked q (p.armedAfter armed op) := by
  cases op with
  | call call => exact h.call hop
  | removeNode n =>
      simp only [Poller.perform] at hop
      split_ifs at hop with howned
      cases hop
      exact h.removeNode howned.1 howned.2
  | handleTimeout now =>
      cases hop
      exact h.handleTimeout now

theorem Tracked.performAll (h : Tracked p armed) {ops : List Op} {armed' : Nat → Option Timespec}
    (hops : p.performAll armed ops = some (q, armed')) : Tracked q armed' := by
  induction ops generalizing p armed with
  | nil =>
      cases hops
      exact h
  | cons op rest ih =>
      obtain ⟨next, hop, hrest⟩ := Option.bind_eq_some_iff.1 hops
      exact ih (h.perform hop) hrest

end Operations

theorem tracked_startedPoller (fds : Descriptors) (maxOpenFiles : Nat) :
    Tracked (startedPoller fds maxOpenFiles) fun _ => none := by
  refine ⟨⟨⟨List.nodup_nil, ?_, ?_, rfl⟩, ?_, List.Pairwise.nil, List.Pairwise.nil, ?_⟩, ?_⟩
  · simp [startedPoller]
  · simp [startedPoller]
  · simp [startedPoller, linked]
  · simp [startedPoller, timed]
  · intro fd n
    simp only [startedPoller, linked]
    split_ifs <;> simp

/-- The list is sorted, the tree is a search tree whatever its shape, and `tree_first` is its earliest
node. -/
structure Sorted (p : Poller) : Prop where
  list : p.timeoList.Pairwise p.NotAfter
  tree : ∀ t : BinTree Nat, t.inorder = p.timeoTree → t.Search p.NotAfter
  none_iff : p.treeFirst = none ↔ p.timeoTree = []
  first : ∀ n, p.treeFirst = some n → n ∈ p.timeoTree ∧ ∀ j ∈ p.timeoTree, p.NotAfter n j

/-- Every armed node is in exactly one of the two structures, once, as its flag says. -/
structure Held (p : Poller) (armed : Nat → Option Timespec) : Prop where
  armed_iff : ∀ n d, armed n = some d ↔ n ∈ p.timed ∧ (p.node n).timeout = d
  once : ∀ n, armed n ≠ none → p.timed.count n = 1
  inTree_iff : ∀ n, armed n ≠ none → (n ∈ p.timeoTree ↔ (p.node n).inRbtree = true)

/-- `__poller_handle_timeout` hands over the armed nodes whose deadline is before `now`, each once, and
keeps the others with their entries. -/
structure ExpiresExactly (p : Poller) (armed : Nat → Option Timespec) (now : Timespec) (expired : List Nat) :
    Prop where
  nodup : expired.Nodup
  mem_iff : ∀ n, n ∈ expired ↔ ∃ d, armed n = some d ∧ timeoutCmp d now < 0
  log : (p.handleTimeout now).log
    = p.log ++ expired.map fun n => .addResult n (some .error) (some etimedout)
  list : (p.handleTimeout now).timeoList = p.timeoList.filter fun n => n ∉ expired
  tree : (p.handleTimeout now).timeoTree = p.timeoTree.filter fun n => n ∉ expired
  noTimeoList : (p.handleTimeout now).noTimeoList = p.noTimeoList
  nodes : ∀ fd, (p.handleTimeout now).nodes fd
    = if ∃ n ∈ expired, p.nodes fd = .node n then .empty else p.nodes fd

section Exact

variable {p : Poller} {armed : Nat → Option Timespec}

theorem Queued.sorted (h : Queued p armed) : Sorted p := by
  refine ⟨h.list, ?_, ?_, ?_⟩
  · intro t ht
    exact BinTree.search_of_pairwise (ht ▸ h.tree)
  · rw [h.links.first]
    exact List.head?_eq_none_iff
  · intro n hn
    have htree := h.tree
    rw [h.links.first] at hn
    obtain ⟨rest, hrest⟩ := List.head?_eq_some_iff.1 hn
    rw [hrest] at htree ⊢
    refine ⟨List.mem_cons_self .., ?_⟩
    intro j hj
    obtain rfl | hj := List.mem_cons.1 hj
    · simp [NotAfter, timeoutCmp]
    · exact (List.pairwise_cons.1 htree).1 j hj

theorem Queued.held (h : Queued p armed) : Held p armed := by
  have hmem : ∀ n, armed n ≠ none → n ∈ p.timed := by
    intro n hn
    by_contra hout
    exact hn (by rw [h.armed n, if_neg hout])
  have hnodup : p.timed.Nodup := by
    have hsublist : p.timed.Sublist p.linked :=
      (List.Sublist.refl _).append (List.sublist_append_left _ _)
    exact h.links.nodup.sublist hsublist
  refine ⟨?_, ?_, ?_⟩
  · intro n d
    rw [h.armed n]
    split_ifs with hn <;> simp [hn]
  · intro n hn
    exact List.count_eq_one_of_mem hnodup (hmem n hn)
  · intro n hn
    refine ⟨h.links.inTree n, ?_⟩
    intro hflag
    obtain htree | hlist := List.mem_append.1 (hmem n hn)
    · exact htree
    · rw [h.links.inLists n (List.mem_append_left _ hlist)] at hflag
      cases hflag

theorem Tracked.expiresExactly (h : Tracked p armed) (now : Timespec) :
    ExpiresExactly p armed now (p.expire now).1 := by
  obtain ⟨hexpired, hgone, hlist, htree, -⟩ := h.toQueued.expire now
  obtain ⟨hlog, htree', hlist', hother', -, -, hnodes', -⟩ :=
    post_eq (p.expire now).1 (p.expire now).2
  have hmem : ∀ n, n ∈ (p.expire now).1 ↔ n ∈ p.timed ∧ p.due now n = true := by
    intro n
    rw [hgone]
    simp only [timed, List.mem_append, List.mem_filter]
    tauto
  refine ⟨?_, ?_, ?_, ?_, ?_, ?_, ?_⟩
  · have hperm : p.timed.Perm (p.timeoList ++ p.timeoTree) := List.perm_append_comm
    have hsublist : p.timed.Sublist p.linked :=
      (List.Sublist.refl _).append (List.sublist_append_left _ _)
    have hnodup := hperm.nodup_iff.1 (h.links.nodup.sublist hsublist)
    rw [hgone, ← List.filter_append]
    exact hnodup.filter _
  · intro n
    rw [hmem, h.armed n]
    split_ifs with hn <;> simp [hn, due]
  · exact hlog.trans (by rw [hexpired.log])
  · refine hlist'.trans (hlist.trans (List.filter_congr ?_))
    intro n hn
    have hn : n ∈ p.timed := List.mem_append_right _ hn
    simp [hmem, hn]
  · refine htree'.trans (htree.trans (List.filter_congr ?_))
    intro n hn
    have hn : n ∈ p.timed := List.mem_append_left _ hn
    simp [hmem, hn]
  · exact hother'.trans hexpired.noTimeoList
  · intro fd
    refine (congrFun hnodes' fd).trans ((hexpired.nodes fd).trans ?_)
    congr 1
    refine propext (exists_congr fun n => and_congr_right fun hn => ?_)
    rw [h.table fd n]
    exact (and_iff_right (h.toQueued.mem_linked_of_expired hn)).symm

end Exact

/-- After any sequence of operations the structures are sorted and hold exactly the armed nodes, and an
expiry at any time hands over exactly those that are due. -/
theorem expiry_exact (fds : Descriptors) (maxOpenFiles : Nat) (ops : List Op) (p : Poller)
    (armed : Nat → Option Timespec)
    (h : (startedPoller fds maxOpenFiles).performAll (fun _ => none) ops = some (p, armed)) :
    Sorted p ∧ Held p armed ∧ ∀ now, ∃ expired, ExpiresExactly p armed now expired := by
  have htracked := (tracked_startedPoller fds maxOpenFiles).performAll h
  exact ⟨htracked.sorted, htracked.held, fun now => ⟨_, htracked.expiresExactly now⟩⟩

/-- A timer and a connection with an earlier deadline, of which the second has expired. -/
def timedOps : List Op :=
  [.call (.addTimer ⟨5, 0⟩ ⟨0, 0⟩), .call (.add ⟨.read, 7⟩ 1000 ⟨0, 0⟩), .handleTimeout ⟨2, 0⟩]

theorem expiry_exact_timedOps :
    ∃ p armed, (startedPoller ⟨3, 4, 5, 6, by decide⟩ 0).performAll (fun _ => none) timedOps
        = some (p, armed) ∧ p.timeoList = [0] ∧ p.timeoTree = [] ∧ p.nodes 7 = .empty
      ∧ Sorted p ∧ Held p armed ∧ ∀ now, ∃ expired, ExpiresExactly p armed now expired :=
  ⟨_, _, rfl, by decide, by decide, by decide,
    expiry_exact ⟨3, 4, 5, 6, by decide⟩ 0 timedOps _ _ rfl⟩

end WorkflowModel.Kernel.Poller
