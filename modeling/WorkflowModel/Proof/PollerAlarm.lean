import WorkflowModel.Proof.PollerExpiry

/-!
# The timer of the poller

Before it waits, the thread sets the timer to the earliest deadline. While it waits, `__poller_insert_node`
sets the timer again only if the new node is the first of its structure and earlier than the first of the
other one. This is enough: the timer is never later than any deadline, and it is never left disarmed while
there is one. A node that is taken away leaves the timer too early, which costs a wake-up and no more.
-/

namespace WorkflowModel.Kernel.Poller

/-- The timer is not after any deadline of a live node, and if there is one it has a value for which `good`
holds. -/
structure Alarm (good : Timespec → Prop) (p : Poller) : Prop where
  early : ∀ n ∈ p.timed, timeoutCmp p.timer (p.node n).timeout ≤ 0
  set : p.timed ≠ [] → good p.timer

section Alarm

variable {p q : Poller} {armed : Nat → Option Timespec} {good : Timespec → Prop} {n : Nat}

theorem Alarm.shrink (h : Alarm good p) (htimer : q.timer = p.timer)
    (hmem : ∀ n ∈ q.timed, n ∈ p.timed ∧ (q.node n).timeout = (p.node n).timeout) : Alarm good q := by
  constructor
  · intro n hn
    obtain ⟨hp, htimeout⟩ := hmem n hn
    rw [htimer, htimeout]
    exact h.early n hp
  · intro hne
    obtain ⟨n, hn⟩ := List.exists_mem_of_ne_nil _ hne
    rw [htimer]
    exact h.set (List.ne_nil_of_mem (hmem n hn).1)

theorem exists_head?_of_mem {l : List Nat} (h : n ∈ l) : ∃ first, l.head? = some first := by
  rw [← Option.ne_none_iff_exists', Ne, List.head?_eq_none_iff]
  exact List.ne_nil_of_mem h

theorem notAfter_of_head? {l : List Nat} (h : l.Pairwise p.NotAfter) {first : Nat}
    (hfirst : l.head? = some first) {n : Nat} (hn : n ∈ l) : p.NotAfter first n := by
  obtain ⟨rest, rfl⟩ := List.head?_eq_some_iff.1 hfirst
  obtain rfl | hn := List.mem_cons.1 hn
  · simp [NotAfter, timeoutCmp]
  · exact (List.pairwise_cons.1 h).1 n hn

/-- The timer is set to the earlier one of two nodes, where every live node is not before one of them. -/
theorem alarm_armBefore {other : Option Nat} (hgood : good (p.node n).timeout)
    (hearly : ∀ j ∈ p.timed, p.NotAfter n j ∨ ∃ o, other = some o ∧ p.NotAfter o j)
    (hold : ∀ o, other = some o → timeoutCmp p.timer (p.node o).timeout ≤ 0 ∧ good p.timer) :
    Alarm good (p.armBefore n other) := by
  unfold armBefore
  cases other with
  | none =>
      refine ⟨?_, fun _ => hgood⟩
      intro j hj
      obtain hj | ⟨o, ho, -⟩ := hearly j hj
      · exact hj
      · cases ho
  | some other =>
      obtain ⟨hother, hset⟩ := hold other rfl
      by_cases hlt : timeoutCmp (p.node n).timeout (p.node other).timeout < 0
      · simp only [if_pos hlt]
        refine ⟨?_, fun _ => hgood⟩
        intro j hj
        obtain hj | ⟨o, ho, hj⟩ := hearly j hj
        · exact hj
        · cases ho
          exact timeoutCmp_le_trans (Int.le_of_lt hlt) hj
      · simp only [if_neg hlt]
        refine ⟨?_, fun _ => hset⟩
        intro j hj
        obtain hj | ⟨o, ho, hj⟩ := hearly j hj
        · have hback : timeoutCmp (p.node other).timeout (p.node n).timeout ≤ 0 :=
            (timeoutCmp_le_iff _ _).2 hlt
          exact timeoutCmp_le_trans hother (timeoutCmp_le_trans hback hj)
        · cases ho
          exact timeoutCmp_le_trans hother hj

theorem Alarm.insertNode (h : Alarm good p) (hq : Queued p armed) (hn : n ∉ p.linked)
    (hcount : n < p.count) (hflag : (p.node n).inRbtree = false) (hgood : good (p.node n).timeout) :
    Alarm good (p.insertNode n) := by
  have hlinked : Queued (p.linkTimed n) (Function.update armed n (some (p.node n).timeout)) := by
    obtain ⟨timer, htimer⟩ := insertNode_timer n p
    have hinsert := hq.insertNode hn hcount hflag
    rw [htimer] at hinsert
    exact hinsert.congr rfl rfl rfl rfl le_rfl (fun _ _ => rfl) fun _ _ => rfl
  have htimer : (p.linkTimed n).timer = p.timer := by
    obtain ⟨heq, -⟩ | ⟨heq, -⟩ := linkTimed_cases p n
    · rw [heq]
    · rw [heq]
      rfl
  -- the nodes other than the new one were there before, and the timer is early for them
  have hother : ∀ o ∈ (p.linkTimed n).timed, o ≠ n →
      timeoutCmp (p.linkTimed n).timer ((p.linkTimed n).node o).timeout ≤ 0
        ∧ good (p.linkTimed n).timer := by
    intro o ho hne
    have hp : o ∈ p.timed :=
      (List.mem_cons.1 ((timed_linkTimed p n).mem_iff.1 ho)).resolve_left hne
    rw [htimer, linkTimed_timeout]
    exact ⟨h.early o hp, h.set (List.ne_nil_of_mem hp)⟩
  have hgood' : good ((p.linkTimed n).node n).timeout := by rwa [linkTimed_timeout]
  have hfirst := hlinked.links.first
  have hmem : n ∈ (p.linkTimed n).timed := (timed_linkTimed p n).mem_iff.2 (List.mem_cons_self ..)
  have hdisjoint : ∀ a ∈ (p.linkTimed n).timeoTree, ∀ b ∈ (p.linkTimed n).timeoList, a ≠ b := by
    intro a ha b hb
    exact (List.nodup_append.1 hlinked.links.nodup).2.2 a ha b (List.mem_append_left _ hb)
  rw [insertNode_eq]
  split_ifs with hhead htree
  · refine alarm_armBefore hgood' ?_ ?_
    · intro j hj
      obtain hj | hj := List.mem_append.1 hj
      · obtain ⟨o, ho⟩ := exists_head?_of_mem hj
        exact .inr ⟨o, hfirst.trans ho, notAfter_of_head? hlinked.tree ho hj⟩
      · exact .inl (notAfter_of_head? hlinked.list hhead hj)
    · intro o ho
      have hin : o ∈ (p.linkTimed n).timeoTree := List.mem_of_mem_head? (hfirst ▸ ho)
      exact hother o (List.mem_append_left _ hin)
        (hdisjoint o hin n (List.mem_of_mem_head? hhead))
  · refine alarm_armBefore hgood' ?_ ?_
    · intro j hj
      obtain hj | hj := List.mem_append.1 hj
      · exact .inl (notAfter_of_head? hlinked.tree (hfirst ▸ htree) hj)
      · obtain ⟨o, ho⟩ := exists_head?_of_mem hj
        exact .inr ⟨o, ho, notAfter_of_head? hlinked.list ho hj⟩
    · intro o ho
      have hin : o ∈ (p.linkTimed n).timeoList := List.mem_of_mem_head? ho
      exact hother o (List.mem_append_right _ hin)
        (hdisjoint n (List.mem_of_mem_head? (hfirst ▸ htree)) o hin).symm
  · -- the first node of the structure that the new one is in was there before and is not later
    have hbefore : ∃ o ∈ (p.linkTimed n).timed, o ≠ n ∧ (p.linkTimed n).NotAfter o n := by
      obtain hin | hin := List.mem_append.1 hmem
      · obtain ⟨o, ho⟩ := exists_head?_of_mem hin
        refine ⟨o, List.mem_append_left _ (List.mem_of_mem_head? ho), ?_,
          notAfter_of_head? hlinked.tree ho hin⟩
        rintro rfl
        exact htree (hfirst.trans ho)
      · obtain ⟨o, ho⟩ := exists_head?_of_mem hin
        refine ⟨o, List.mem_append_right _ (List.mem_of_mem_head? ho), ?_,
          notAfter_of_head? hlinked.list ho hin⟩
        rintro rfl
        exact hhead ho
    obtain ⟨o, ho, hne, horder⟩ := hbefore
    refine ⟨?_, fun _ => (hother o ho hne).2⟩
    intro j hj
    by_cases hj' : j = n
    · rw [hj']
      exact timeoutCmp_le_trans (hother o ho hne).1 horder
    · exact (hother j hj hj').1

theorem Alarm.place (h : Alarm good p) (hq : Queued p armed) (hn : n ∉ p.linked) (hcount : n < p.count)
    (hflag : (p.node n).inRbtree = false) (timed : Bool)
    (hgood : timed = true → good (p.node n).timeout) : Alarm good (p.place n timed) := by
  cases timed with
  | true => exact h.insertNode hq hn hcount hflag (hgood rfl)
  | false => exact h.shrink rfl fun j hj => ⟨hj, rfl⟩

theorem unlink_timer (n : Nat) (p : Poller) : (p.unlink n).timer = p.timer := by
  unfold unlink
  split_ifs <;> rfl

theorem Alarm.unlink (h : Alarm good p) (hq : Queued p armed) (n : Nat) : Alarm good (p.unlink n) := by
  refine h.shrink (unlink_timer n p) ?_
  intro j hj
  exact ⟨((hq.links.mem_unlink_timed n j).1 hj).1, unlink_timeout p n j⟩

theorem Alarm.retire (h : Alarm good p) (n : Nat) (state : ResultState) : Alarm good (p.retire n state) := by
  obtain ⟨htree, hlist, -, -⟩ := retire_links n state p
  refine h.shrink ?_ ?_
  · unfold Poller.retire
    simp only []
    split_ifs <;> rfl
  · intro j hj
    rw [timed, htree, hlist] at hj
    exact ⟨hj, retire_field PollerNode.timeout (fun _ _ _ => rfl) (fun _ _ => rfl) n state p j⟩

theorem Alarm.create (h : Alarm good p) (hq : Queued p armed) (node : PollerNode)
    (hflag : node.inRbtree = false) (timed : Bool) (hgood : timed = true → good node.timeout) :
    Alarm good ((p.alloc node).place p.count timed) := by
  have hself : (p.alloc node).node p.count = node := Function.update_self ..
  have halloc : Alarm good (p.alloc node) := by
    refine h.shrink rfl ?_
    intro j hj
    refine ⟨hj, ?_⟩
    have hlt := hq.bounded j (mem_linked_of_mem_timed hj)
    exact congrArg PollerNode.timeout (Function.update_of_ne (Nat.ne_of_lt hlt) ..)
  exact halloc.place (hq.alloc node) hq.count_not_mem (Nat.lt_succ_self _)
    ((congrArg PollerNode.inRbtree hself).trans hflag) timed (hself.symm ▸ hgood)

end Alarm

/-- The deadlines that an operation asks for. -/
def deadlinesOf : Op → List Timespec
  | .call (.add _ timeout now) => (deadlineOf timeout now).toList
  | .call (.mod _ timeout now) => (deadlineOf timeout now).toList
  | .call (.setTimeout _ timeout now) => (deadlineOf timeout now).toList
  | .call (.addTimer value now) => [carry ⟨now.sec + value.sec, now.nsec + value.nsec⟩]
  | _ => []

section Calls

variable {p q : Poller} {armed : Nat → Option Timespec} {good : Timespec → Prop}

theorem good_of_deadlineOf {timeout : Int} {now : Timespec}
    (hgood : ∀ d ∈ (deadlineOf timeout now).toList, good d) (node : PollerNode)
    (hnode : node.timeout = deadline now timeout) :
    decide (0 ≤ timeout) = true → good node.timeout := by
  intro htimeout
  rw [hnode]
  apply hgood
  rw [decide_eq_true_eq] at htimeout
  simp [deadlineOf, htimeout]

theorem Alarm.rearm (h : Alarm good p) (hq : Queued p armed) {n : Nat} (hmem : n ∈ p.linked)
    {timeout : Int} {now : Timespec} (hgood : ∀ d ∈ (deadlineOf timeout now).toList, good d) :
    Alarm good (((p.unlink n).redate n timeout now).place n (0 ≤ timeout)) := by
  obtain ⟨hdated, hout, hlt, hflag⟩ := hq.redate hmem timeout now
  obtain ⟨node, hnode, -, -, hdeadline⟩ := redate_eq n timeout now (p.unlink n)
  refine Alarm.place ?_ hdated hout hlt hflag _ ?_
  · refine (h.unlink hq n).shrink (by rw [hnode]; rfl) ?_
    intro j hj
    rw [hnode] at hj ⊢
    refine ⟨hj, ?_⟩
    rw [setNode_node_of_ne]
    rintro rfl
    exact ((hq.links.mem_unlink_timed j j).1 hj).2 rfl
  · intro htimeout
    apply hgood
    rw [decide_eq_true_eq] at htimeout
    rw [hnode, setNode_node_self, hdeadline htimeout]
    simp [deadlineOf, htimeout]

theorem Alarm.call (h : Alarm good p) (hq : Tracked p armed) {call : Call}
    (hcall : p.call call = some q) (hgood : ∀ d ∈ deadlinesOf (.call call), good d) : Alarm good q := by
  cases call with
  | add data timeout now =>
      obtain ⟨result, hadd, rfl⟩ := Option.map_eq_some_iff.1 hcall
      obtain ⟨heq, -⟩ | ⟨event, -, -, -, heq⟩ := add_cases hadd
      · rw [heq]
        exact h
      · rw [heq]
        have hqueued : Queued (p.addFd data.fd.toNat event (.node p.count)) armed :=
          hq.toQueued.congr rfl rfl rfl rfl le_rfl (fun _ _ => rfl) fun _ _ => rfl
        have hregistered : Alarm good (p.addFd data.fd.toNat event (.node p.count)) :=
          h.shrink rfl fun j hj => ⟨hj, rfl⟩
        have hcreated := hregistered.create hqueued
          (newNode data.operation data.fd event (deadline now timeout)) rfl (decide (0 ≤ timeout))
          (good_of_deadlineOf hgood _ rfl)
        exact hcreated.shrink rfl fun j hj => ⟨hj, rfl⟩
  | del fd =>
      obtain ⟨result, hdel, rfl⟩ := Option.map_eq_some_iff.1 hcall
      obtain ⟨heq, -⟩ | ⟨n, -, -, heq⟩ := del_cases hdel
      · rw [heq]
        exact h
      · rw [heq]
        apply Alarm.retire
        have hslot : Queued (p.setSlot fd.toNat .empty) armed :=
          hq.toQueued.congr rfl rfl rfl rfl le_rfl (fun _ _ => rfl) fun _ _ => rfl
        have hclear : Alarm good (p.setSlot fd.toNat .empty) := h.shrink rfl fun j hj => ⟨hj, rfl⟩
        exact (hclear.unlink hslot n).shrink rfl fun j hj => ⟨hj, rfl⟩
  | mod data timeout now =>
      obtain ⟨result, hmod, rfl⟩ := Option.map_eq_some_iff.1 hcall
      obtain ⟨heq, -⟩ | ⟨event, old, -, -, hslot, heq⟩ := mod_cases hmod
      · rw [heq]
        exact h
      · rw [heq]
        have hmem := ((hq.table _ old).1 hslot).1
        have hretired := (h.unlink hq.toQueued old).retire old .modified
        have hcreated := hretired.create ((hq.toQueued.unlink hmem).retire old .modified)
          (newNode data.operation data.fd event (deadline now timeout)) rfl (decide (0 ≤ timeout))
          (good_of_deadlineOf hgood _ rfl)
        exact hcreated.shrink rfl fun j hj => ⟨hj, rfl⟩
  | setTimeout fd timeout now =>
      obtain ⟨result, hset, rfl⟩ := Option.map_eq_some_iff.1 hcall
      obtain ⟨heq, -⟩ | ⟨n, -, hslot, heq⟩ := setTimeout_cases hset
      · rw [heq]
        exact h
      · rw [heq]
        exact h.rearm hq.toQueued ((hq.table _ n).1 hslot).1 hgood
  | addTimer value now =>
      cases hcall
      exact h.create hq.toQueued
        (newNode .timer (-1) 0 (carry ⟨now.sec + value.sec, now.nsec + value.nsec⟩)) rfl true
        fun _ => hgood _ (List.mem_singleton_self _)

def AllGood (good : Timespec → Prop) (armed : Nat → Option Timespec) : Prop :=
  ∀ n d, armed n = some d → good d

theorem AllGood.update (h : AllGood good armed) (k : Nat) {value : Option Timespec}
    (hvalue : ∀ d ∈ value.toList, good d) : AllGood good (Function.update armed k value) := by
  intro n d hn
  by_cases hk : n = k
  · rw [hk, Function.update_self] at hn
    exact hvalue d (by simp [hn])
  · rw [Function.update_of_ne hk] at hn
    exact h n d hn

/-- The deadlines of the live nodes are among those that were asked for. -/
theorem AllGood.armedAfter (h : AllGood good armed) {op : Op} (hop : ∀ d ∈ deadlinesOf op, good d) :
    AllGood good (p.armedAfter armed op) := by
  have hnone : ∀ d ∈ (none : Option Timespec).toList, good d := by simp
  cases op with
  | call call =>
      cases call with
      | add data timeout now =>
          simp only [Poller.armedAfter]
          split
          · exact h.update _ hop
          · exact h
      | del fd =>
          simp only [Poller.armedAfter]
          split
          · exact h.update _ hnone
          · exact h
      | mod data timeout now =>
          simp only [Poller.armedAfter]
          split
          · exact (h.update _ hnone).update _ hop
          · exact h
      | setTimeout fd timeout now =>
          simp only [Poller.armedAfter]
          split
          · exact h.update _ hop
          · exact h
      | addTimer value now =>
          refine h.update _ ?_
          simpa [deadlinesOf] using hop
  | removeNode k =>
      simp only [Poller.armedAfter]
      split_ifs
      · exact h
      · exact h.update _ hnone
  | handleTimeout now =>
      intro n d hn
      obtain ⟨harmed, -⟩ := Option.filter_eq_some_iff.1 hn
      exact h n d harmed

theorem AllGood.performAll {ops : List Op} {armed' : Nat → Option Timespec} (hgood : AllGood good armed)
    (h : p.performAll armed ops = some (q, armed'))
    (hops : ∀ op ∈ ops, ∀ d ∈ deadlinesOf op, good d) : AllGood good armed' := by
  induction ops generalizing p armed with
  | nil =>
      cases h
      exact hgood
  | cons op rest ih =>
      obtain ⟨next, -, hrest⟩ := Option.bind_eq_some_iff.1 h
      exact ih (hgood.armedAfter (hops op (List.mem_cons_self ..))) hrest
        fun op hop => hops op (List.mem_cons_of_mem _ hop)

/-- The node whose deadline `__poller_set_timer` takes. -/
def earliest (p : Poller) : Option Nat :=
  match p.timeoList.head?, p.treeFirst with
  | none, first => first
  | some node, none => some node
  | some node, some first =>
      if timeoutCmp (p.node first).timeout (p.node node).timeout < 0 then some first else some node

theorem setTimer_earliest (p : Poller) :
    p.setTimer = { p with timer := match p.earliest with
      | none => ⟨0, 0⟩
      | some n => (p.node n).timeout } := by
  change (match p.earliest with
    | none => { p with timer := ⟨0, 0⟩ }
    | some n => { p with timer := (p.node n).timeout }) = _
  cases p.earliest <;> rfl

/-- The node is the first of one structure and not after the first of the other. -/
theorem Queued.earliest (h : Queued p armed) :
    (p.earliest = none → p.timed = [])
      ∧ ∀ n, p.earliest = some n → n ∈ p.timed ∧ ∀ j ∈ p.timed, p.NotAfter n j := by
  have hlist : ∀ first, p.timeoList.head? = some first →
      first ∈ p.timed ∧ ∀ j ∈ p.timeoList, p.NotAfter first j := fun first hfirst =>
    ⟨List.mem_append_right _ (List.mem_of_mem_head? hfirst),
      fun _ hj => notAfter_of_head? h.list hfirst hj⟩
  have htree : ∀ first, p.treeFirst = some first →
      first ∈ p.timed ∧ ∀ j ∈ p.timeoTree, p.NotAfter first j := fun first hfirst =>
    ⟨List.mem_append_left _ (List.mem_of_mem_head? (h.links.first ▸ hfirst)),
      fun _ hj => notAfter_of_head? h.tree (h.links.first ▸ hfirst) hj⟩
  have hlistNil : p.timeoList.head? = none → p.timeoList = [] := List.head?_eq_none_iff.1
  have htreeNil : p.treeFirst = none → p.timeoTree = [] := fun hfirst =>
    List.head?_eq_none_iff.1 (h.links.first.symm.trans hfirst)
  unfold Poller.earliest
  cases hhead : p.timeoList.head? with
  | none =>
      simp only [timed, hlistNil hhead, List.append_nil]
      refine ⟨htreeNil, ?_⟩
      intro n hn
      have hmem := (htree n hn).1
      rw [timed, hlistNil hhead, List.append_nil] at hmem
      exact ⟨hmem, (htree n hn).2⟩
  | some node =>
      obtain ⟨hnode, hnodeList⟩ := hlist node hhead
      cases hfirst : p.treeFirst with
      | none =>
          refine ⟨by simp, ?_⟩
          rintro n ⟨⟩
          refine ⟨hnode, ?_⟩
          simpa only [timed, htreeNil hfirst, List.nil_append] using hnodeList
      | some first =>
          obtain ⟨hfirstMem, hfirstTree⟩ := htree first hfirst
          by_cases hlt : timeoutCmp (p.node first).timeout (p.node node).timeout < 0
          · simp only [if_pos hlt]
            refine ⟨by simp, ?_⟩
            rintro n ⟨⟩
            refine ⟨hfirstMem, ?_⟩
            intro j hj
            obtain hj | hj := List.mem_append.1 hj
            · exact hfirstTree j hj
            · exact timeoutCmp_le_trans (Int.le_of_lt hlt) (hnodeList j hj)
          · simp only [if_neg hlt]
            refine ⟨by simp, ?_⟩
            rintro n ⟨⟩
            refine ⟨hnode, ?_⟩
            intro j hj
            obtain hj | hj := List.mem_append.1 hj
            · exact timeoutCmp_le_trans ((timeoutCmp_le_iff _ _).2 hlt) (hfirstTree j hj)
            · exact hnodeList j hj

theorem Queued.alarm_setTimer (h : Queued p armed) (hgood : AllGood good armed) :
    Alarm good p.setTimer := by
  obtain ⟨hnone, hsome⟩ := h.earliest
  rw [setTimer_earliest]
  cases hfirst : p.earliest with
  | none => exact ⟨by simp [timed, List.append_eq_nil_iff.1 (hnone hfirst)], fun hne => absurd (hnone hfirst) hne⟩
  | some n =>
      obtain ⟨hmem, hearly⟩ := hsome n hfirst
      refine ⟨hearly, fun _ => ?_⟩
      exact hgood n _ (by rw [h.armed n, if_pos hmem])

theorem Tracked.setTimer (h : Tracked p armed) : Tracked p.setTimer armed := by
  obtain ⟨timer, htimer⟩ := setTimer_eq p
  rw [htimer]
  exact ⟨h.toQueued.congr rfl rfl rfl rfl le_rfl (fun _ _ => rfl) fun _ _ => rfl, h.table⟩

theorem Alarm.calls (h : Alarm good p) (hq : Tracked p armed) {calls : List Call}
    {armed' : Nat → Option Timespec} (hcalls : p.performAll armed (calls.map .call) = some (q, armed'))
    (hgood : ∀ call ∈ calls, ∀ d ∈ deadlinesOf (.call call), good d) : Alarm good q := by
  induction calls generalizing p armed with
  | nil =>
      cases hcalls
      exact h
  | cons call rest ih =>
      obtain ⟨next, hcall, hrest⟩ := Option.bind_eq_some_iff.1 hcalls
      exact ih (h.call hq hcall (hgood call (List.mem_cons_self ..))) (hq.call hcall) hrest
        fun call hcall => hgood call (List.mem_cons_of_mem _ hcall)

/-- From a `__poller_set_timer` on, whatever has happened before and whatever calls are made while the
thread waits, the timer is not after the deadline of any live node. As long as no deadline is the zero that
disarms the timer (the clock runs from a positive value), the timer is armed when a node has a deadline. -/
theorem timer_not_late (fds : Descriptors) (maxOpenFiles : Nat) (ops : List Op) (calls : List Call)
    (p q : Poller) (armed armed' : Nat → Option Timespec)
    (h : (startedPoller fds maxOpenFiles).performAll (fun _ => none) ops = some (p, armed))
    (hcalls : p.setTimer.performAll armed (calls.map .call) = some (q, armed')) :
    (∀ n d, armed' n = some d → timeoutCmp q.timer d ≤ 0)
      ∧ ((∀ op ∈ ops ++ calls.map .call, ∀ d ∈ deadlinesOf op, d ≠ ⟨0, 0⟩) →
        (∃ n, armed' n ≠ none) → q.timer ≠ ⟨0, 0⟩) := by
  have htracked := (tracked_startedPoller fds maxOpenFiles).performAll h
  have hheld := (htracked.setTimer.performAll hcalls).held
  constructor
  · have halarm : Alarm (fun _ => True) q :=
      (htracked.toQueued.alarm_setTimer fun _ _ _ => trivial).calls htracked.setTimer hcalls
        fun _ _ _ _ => trivial
    intro n d hd
    obtain ⟨hmem, rfl⟩ := (hheld.armed_iff n d).1 hd
    exact halarm.early n hmem
  · intro hclock hlive
    have hstart : AllGood (· ≠ ⟨0, 0⟩) fun _ => none := by simp [AllGood]
    have hgood := hstart.performAll h fun op hop => hclock op (List.mem_append_left _ hop)
    have halarm : Alarm (· ≠ ⟨0, 0⟩) q :=
      (htracked.toQueued.alarm_setTimer hgood).calls htracked.setTimer hcalls
        fun call hcall => hclock _ (List.mem_append_right _ (List.mem_map_of_mem hcall))
    obtain ⟨n, hn⟩ := hlive
    obtain ⟨d, hd⟩ := Option.ne_none_iff_exists'.1 hn
    exact halarm.set (List.ne_nil_of_mem ((hheld.armed_iff n d).1 hd).1)

end Calls

/-- The connection is added while the thread waits for the timer of the first node. -/
theorem timer_not_late_earlierCall :
    ∃ p armed q armed', (startedPoller ⟨3, 4, 5, 6, by decide⟩ 0).performAll (fun _ => none)
        [.call (.addTimer ⟨5, 0⟩ ⟨1, 0⟩)] = some (p, armed)
      ∧ p.setTimer.performAll armed ([.add ⟨.read, 7⟩ 1000 ⟨2, 0⟩].map .call) = some (q, armed')
      ∧ p.setTimer.timer = ⟨6, 0⟩ ∧ armed' 1 = some ⟨3, 0⟩ ∧ q.timer = ⟨3, 0⟩
      ∧ ∀ n d, armed' n = some d → timeoutCmp q.timer d ≤ 0 :=
  ⟨_, _, _, _, rfl, rfl, by decide, by decide, by decide,
    (timer_not_late ⟨3, 4, 5, 6, by decide⟩ 0 [.call (.addTimer ⟨5, 0⟩ ⟨1, 0⟩)]
      [.add ⟨.read, 7⟩ 1000 ⟨2, 0⟩] _ _ _ _ rfl rfl).1⟩

end WorkflowModel.Kernel.Poller
