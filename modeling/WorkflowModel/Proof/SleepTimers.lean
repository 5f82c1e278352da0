import WorkflowModel.Proof.PollerExpiry
import WorkflowModel.Proof.PollerHandover

/-!
# Timers in the machine of a poller

Nobody can reach a timer through the table. So it stays linked with its deadline until the thread looks for expired
nodes at a later time. The thread then has it in its hands, and hands it over with a timeout.
-/

namespace WorkflowModel.Kernel

namespace Poller

variable {p q : Poller} {armed : Nat → Option Timespec}

theorem Tracked.congr (h : Tracked p armed) (htree : q.timeoTree = p.timeoTree) (hlist : q.timeoList = p.timeoList)
    (hother : q.noTimeoList = p.noTimeoList) (hfirst : q.treeFirst = p.treeFirst) (hcount : q.count = p.count)
    (hnodes : q.nodes = p.nodes) (hflag : ∀ n, (q.node n).inRbtree = (p.node n).inRbtree)
    (htimeout : ∀ n, (q.node n).timeout = (p.node n).timeout) (hfd : ∀ n, (q.node n).fd = (p.node n).fd) :
    Tracked q armed := by
  refine ⟨h.toQueued.congr htree hlist hother hfirst hcount.ge (fun n _ => hflag n) fun n _ => htimeout n, ?_⟩
  intro fd n
  have hlinked : q.linked = p.linked := by rw [linked, linked, htree, hlist, hother]
  rw [hnodes, hlinked, hfd]
  exact h.table fd n

theorem Tracked.setResult (h : Tracked p armed) (n : Nat) (state : ResultState) (error : Int) :
    Tracked ((p.setResult n state error).addResult n) armed :=
  h.congr rfl rfl rfl rfl rfl rfl (setNode_field PollerNode.inRbtree (by rfl))
    (setNode_field PollerNode.timeout (by rfl)) (setNode_field PollerNode.fd (by rfl))

theorem Tracked.expire (h : Tracked p armed) (now : Timespec) :
    Tracked (p.expire now).2 (p.armedAfter armed (.handleTimeout now)) := by
  obtain ⟨-, htree, hlist, hother, hfirst, hcount, hnodes, hnode⟩ := post_eq (p.expire now).1 (p.expire now).2
  exact (h.handleTimeout now).congr htree.symm hlist.symm hother.symm hfirst.symm hcount.symm hnodes.symm
    (fun n => (hnode n).1.symm) (fun n => (hnode n).2.1.symm) fun n => (hnode n).2.2.symm

theorem DroppedAll.pipe {ns : List Nat} (h : DroppedAll p ns q) : q.pipe = p.pipe := by
  induction h with
  | nil => rfl
  | cons first _ ih => exact ih.trans first.pipe

/-- What a call leaves alone. The nodes that it creates are timers only as `timer` says. -/
structure CallFrame (timer : Nat → Prop) (p q : Poller) : Prop where
  log : q.log = p.log
  pipe : q.pipe = p.pipe ∨ ∃ fd n, p.nodes fd = .node n ∧ q.pipe = p.pipe ++ [some n]
  fresh : ∀ n, p.count ≤ n → n < q.count → (q.node n).operation = .timer → timer n ∧ (q.node n).fd = -1

theorem callFrame_refl (timer : Nat → Prop) (p : Poller) : CallFrame timer p p :=
  ⟨rfl, .inl rfl, fun _ hle hlt => absurd hlt (not_lt.mpr hle)⟩

theorem callFrame_add {data : PollerData} {timeout : Int} {now : Timespec} {result : Except Errno Unit × Poller}
    (timer : Nat → Prop) (h : p.add data timeout now = some result) : CallFrame timer p result.2 := by
  obtain ⟨heq, -⟩ | ⟨event, -, hevent, -, heq⟩ := add_cases h
  · rw [heq]
    exact callFrame_refl timer p
  · rw [heq]
    have hplace := onlyLinks_place p.count (decide (0 ≤ timeout))
      ((p.alloc (newNode data.operation data.fd event (deadline now timeout))).addFd data.fd.toNat event
        (.node p.count))
    refine ⟨hplace.log, .inl hplace.pipe, fun n hle hlt htimer => ?_⟩
    have hcount : n < p.count + 1 := lt_of_lt_of_eq hlt hplace.count
    obtain rfl : n = p.count := by omega
    have hoperation : data.operation = .timer := by
      rw [← htimer]
      exact ((hplace.operation p.count).trans (congrArg PollerNode.operation (alloc_node_self _ p))).symm
    rw [hoperation] at hevent
    cases hevent

theorem callFrame_del {fd : Int} {result : Except Errno Unit × Poller} (timer : Nat → Prop)
    (hrunning : p.stopped = false) (h : p.del fd = some result) : CallFrame timer p result.2 := by
  obtain ⟨heq, -⟩ | ⟨n, -, hn, heq⟩ := del_cases h
  · rw [heq]
    exact callFrame_refl timer p
  · rw [heq]
    have hunlink := onlyLinks_unlink n (p.setSlot fd.toNat .empty)
    have hstopped : (((p.setSlot fd.toNat .empty).unlink n).delFd fd.toNat).stopped = false :=
      hunlink.stopped.trans hrunning
    have hcount : ((((p.setSlot fd.toNat .empty).unlink n).delFd fd.toNat).retire n .deleted).count = p.count :=
      (retire_frame n .deleted _).2.2.trans hunlink.count
    refine ⟨?_, .inr ⟨fd.toNat, n, hn, ?_⟩, fun j hle hlt => absurd (hcount ▸ hlt) (not_lt.mpr hle)⟩
    · rw [Poller.retire, Poller.setResult, setNode]
      dsimp only
      rw [hstopped]
      exact hunlink.log
    · rw [Poller.retire, Poller.setResult, setNode]
      dsimp only
      rw [hstopped]
      exact congrArg (· ++ [some n]) hunlink.pipe

theorem callFrame_setTimeout {fd timeout : Int} {now : Timespec} {result : Except Errno Unit × Poller}
    (timer : Nat → Prop) (h : p.setTimeout fd timeout now = some result) : CallFrame timer p result.2 := by
  obtain ⟨heq, -⟩ | ⟨n, -, hn, heq⟩ := setTimeout_cases h
  · rw [heq]
    exact callFrame_refl timer p
  · rw [heq]
    have hunlink := onlyLinks_unlink n p
    have hdated : OnlyLinks p (if 0 ≤ timeout then
        (p.unlink n).setNode n { (p.unlink n).node n with timeout := deadline now timeout } else p.unlink n) := by
      split_ifs
      · exact hunlink.trans (onlyLinks_setNode rfl rfl rfl rfl)
      · exact hunlink
    have hplace := hdated.trans (onlyLinks_place n (decide (0 ≤ timeout)) _)
    exact ⟨hplace.log, .inl hplace.pipe, fun j hle hlt => absurd (hplace.count ▸ hlt) (not_lt.mpr hle)⟩

theorem callFrame_addTimer (value now : Timespec) (p : Poller) :
    CallFrame (· = p.count) p (p.addTimer value now) := by
  have hinsert := onlyLinks_insertNode p.count
    (p.alloc (newNode .timer (-1) 0 (carry ⟨now.sec + value.sec, now.nsec + value.nsec⟩)))
  refine ⟨hinsert.log, .inl hinsert.pipe, fun n hle hlt _ => ?_⟩
  have hcount : n < p.count + 1 := lt_of_lt_of_eq hlt hinsert.count
  obtain rfl : n = p.count := by omega
  exact ⟨rfl, (hinsert.fd p.count).trans (congrArg PollerNode.fd (alloc_node_self _ p))⟩

theorem addTimer_node (value now : Timespec) (p : Poller) :
    (p.addTimer value now).count = p.count + 1
      ∧ ((p.addTimer value now).node p.count).operation = .timer := by
  have hinsert := onlyLinks_insertNode p.count
    (p.alloc (newNode .timer (-1) 0 (carry ⟨now.sec + value.sec, now.nsec + value.nsec⟩)))
  exact ⟨hinsert.count,
    (hinsert.operation p.count).trans (congrArg PollerNode.operation (alloc_node_self _ p))⟩

end Poller

namespace Machine

open Poller

def expires : Pc → Prop
  | .timeoutResults _ _ => True
  | _ => False

def batchOf : Pc → Option Batch
  | .event batch => some batch
  | .removing _ _ _ batch => some batch
  | .finishing _ _ _ batch => some batch
  | .checkPipe batch => some batch
  | .pipeResults _ _ batch => some batch
  | .timeout batch => some batch
  | .timeoutResults _ batch => some batch
  | _ => none

/-- The deadlines after a step. -/
def armedAfter (m : Machine) (armed : Nat → Option Timespec) : Input → Nat → Option Timespec
  | .call call => m.poller.armedAfter armed (.call call)
  | .stopMarker => armed
  | .thread _ =>
      match m.pc with
      | .removing n _ _ _ => m.poller.armedAfter armed (.removeNode n)
      | .timeout batch => m.poller.armedAfter armed (.handleTimeout batch.now)
      | _ => armed

/-- The nodes that are sent or removed watch a descriptor, and timers do not. -/
structure Timed (m : Machine) (armed : Nat → Option Timespec) : Prop where
  inv : m.Inv
  tracked : Tracked m.poller armed
  sent : ∀ n ∈ m.poller.sentNodes, 0 ≤ (m.poller.node n).fd
  hands : ∀ n ∈ held m.pc, ¬ expires m.pc → 0 ≤ (m.poller.node n).fd
  timers : ∀ n, n < m.poller.count → (m.poller.node n).operation = .timer → (m.poller.node n).fd = -1

def IsTimer (p : Poller) (n : Nat) : Prop := n < p.count ∧ (p.node n).operation = .timer

/-- A step leaves a timer where it is, or finds it expired, or hands it over. -/
inductive TimerStep (m next : Machine) (armed armed' : Nat → Option Timespec) (log : List Action) (n : Nat) : Prop
  | quiet (hsame : armed' n = armed n) (hheld : n ∈ held next.pc ↔ n ∈ held m.pc)
      (hlog : ∀ action ∈ log, ¬ action.hands n)
  | fired (batch : Batch) (d : Timespec) (hpc : m.pc = .timeout batch) (harmed : armed n = some d)
      (hdue : timeoutCmp d batch.now < 0) (hgone : armed' n = none) (hheld : n ∈ held next.pc) (hlog : log = [])
  | handed (hsame : armed' n = armed n) (hbefore : n ∈ held m.pc) (hafter : n ∉ held next.pc)
      (hlog : log = [.addResult n (some .error) (some etimedout)])

structure Advance (m next : Machine) (armed armed' : Nat → Option Timespec) (fresh : Nat → Prop)
    (added : List Action) : Prop where
  timed : Timed next armed'
  count : m.poller.count ≤ next.poller.count
  log : next.poller.log = m.poller.log ++ added
  timers : ∀ n, IsTimer m.poller n → IsTimer next.poller n ∧ TimerStep m next armed armed' added n
  fresh : ∀ n, IsTimer next.poller n → IsTimer m.poller n ∨ (m.poller.count ≤ n ∧ fresh n)

section Calls

variable {m : Machine} {armed : Nat → Option Timespec} {p : Poller}

theorem Timed.fd_of_slot (h : Timed m armed) {fd n : Nat} (hslot : m.poller.nodes fd = .node n) :
    0 ≤ (m.poller.node n).fd := by
  obtain ⟨-, hfd⟩ := h.inv.nodes.table fd n hslot
  omega

theorem Timed.ne_of_slot (h : Timed m armed) {fd n j : Nat} (hslot : m.poller.nodes fd = .node j)
    (htimer : IsTimer m.poller n) : n ≠ j := by
  rintro rfl
  have hfd := h.fd_of_slot hslot
  rw [h.timers n htimer.1 htimer.2] at hfd
  omega

/-- A call of a connection does not touch the deadline of a timer. -/
theorem Timed.armedAfter_call (h : Timed m armed) {n : Nat} (htimer : IsTimer m.poller n) (call : Call)
    (hmod : ∀ data timeout now, call ≠ .mod data timeout now) :
    m.poller.armedAfter armed (.call call) n = armed n := by
  cases call with
  | add data timeout now =>
      simp only [Poller.armedAfter]
      cases m.poller.fdError data.fd with
      | some error => rfl
      | none =>
          cases dataGetEvent data.operation with
          | none => rfl
          | some event =>
              cases m.poller.nodes data.fd.toNat with
              | empty => exact Function.update_of_ne htimer.1.ne ..
              | reserved => rfl
              | node j => rfl
  | del fd =>
      simp only [Poller.armedAfter]
      cases m.poller.fdError fd with
      | some error => rfl
      | none =>
          cases hslot : m.poller.nodes fd.toNat with
          | empty => rfl
          | reserved => rfl
          | node j => exact Function.update_of_ne (h.ne_of_slot hslot htimer) ..
  | mod data timeout now => exact absurd rfl (hmod data timeout now)
  | setTimeout fd timeout now =>
      simp only [Poller.armedAfter]
      cases m.poller.fdError fd with
      | some error => rfl
      | none =>
          cases hslot : m.poller.nodes fd.toNat with
          | empty => rfl
          | reserved => rfl
          | node j => exact Function.update_of_ne (h.ne_of_slot hslot htimer) ..
  | addTimer value now => exact Function.update_of_ne htimer.1.ne ..

theorem Timed.call (h : Timed m armed) {call : Call} {timer : Nat → Prop}
    (hmod : ∀ data timeout now, call ≠ .mod data timeout now) (hcall : m.poller.call call = some p)
    (hkeeps : Keeps m.poller p) (hframe : CallFrame timer m.poller p) :
    Advance m { m with poller := p } armed (m.poller.armedAfter armed (.call call)) timer [] where
  timed := by
    have hallowed : Allowed (.call call) := by
      cases call with
      | mod data timeout now => exact absurd rfl (hmod data timeout now)
      | _ => trivial
    have hsent : ∀ n ∈ p.sentNodes, n < m.poller.count ∧ 0 ≤ (m.poller.node n).fd := by
      intro n hn
      have hold : n ∈ m.poller.sentNodes → n < m.poller.count ∧ 0 ≤ (m.poller.node n).fd := fun hmem =>
        ⟨h.inv.nodes.bounded n (List.mem_append_right _ (List.mem_append_left _ hmem)), h.sent n hmem⟩
      obtain hpipe | ⟨fd, j, hslot, hpipe⟩ := hframe.pipe
      · exact hold (by rw [sentNodes, hpipe] at hn; exact hn)
      · rw [sentNodes, hpipe, List.filterMap_append, List.mem_append] at hn
        obtain hn | hn := hn
        · exact hold hn
        · obtain rfl : n = j := by simpa using hn
          exact ⟨h.inv.nodes.lt_count (h.inv.nodes.table fd n hslot).1, h.fd_of_slot hslot⟩
    refine ⟨h.inv.call hallowed hcall, h.tracked.call hcall, ?_, ?_, ?_⟩
    · intro n hn
      change 0 ≤ (p.node n).fd
      rw [hkeeps.fd n (hsent n hn).1]
      exact (hsent n hn).2
    · intro n hn hexpires
      have hlt : n < m.poller.count := h.inv.nodes.bounded n
        (List.mem_append_right _ (List.mem_append_right _ (List.mem_append_left _ hn)))
      change 0 ≤ (p.node n).fd
      rw [hkeeps.fd n hlt]
      exact h.hands n hn hexpires
    · intro n hn htimer
      by_cases hlt : n < m.poller.count
      · change (p.node n).fd = -1
        rw [hkeeps.fd n hlt]
        exact h.timers n hlt ((hkeeps.operation n hlt).symm.trans htimer)
      · exact (hframe.fresh n (not_lt.mp hlt) hn htimer).2
  count := hkeeps.count
  log := by rw [List.append_nil]; exact hframe.log
  timers := by
    intro n htimer
    refine ⟨⟨lt_of_lt_of_le htimer.1 hkeeps.count, (hkeeps.operation n htimer.1).trans htimer.2⟩, ?_⟩
    exact .quiet (h.armedAfter_call htimer call hmod) Iff.rfl fun _ hmem => absurd hmem List.not_mem_nil
  fresh := by
    intro n htimer
    by_cases hlt : n < m.poller.count
    · exact .inl ⟨hlt, (hkeeps.operation n hlt).symm.trans htimer.2⟩
    · exact .inr ⟨not_lt.mp hlt, (hframe.fresh n (not_lt.mp hlt) htimer.1 htimer.2).1⟩

end Calls

section Thread

variable {m : Machine} {armed armed' : Nat → Option Timespec} {p : Poller} {pc : Pc} {log : List Action}

/-- A step of the thread creates no node. -/
theorem Timed.thread (h : Timed m armed) (hinv : Inv { pc := pc, poller := p }) (htracked : Tracked p armed')
    (hlog : p.log = m.poller.log ++ log) (hcount : p.count = m.poller.count)
    (hfd : ∀ n, (p.node n).fd = (m.poller.node n).fd)
    (hoperation : ∀ n, (p.node n).operation = (m.poller.node n).operation)
    (hsent : ∀ n ∈ p.sentNodes, n ∈ m.poller.sentNodes)
    (hhands : ∀ n ∈ held pc, ¬ expires pc → 0 ≤ (m.poller.node n).fd)
    (hsteps : ∀ n, IsTimer m.poller n → TimerStep m { pc := pc, poller := p } armed armed' log n) :
    Advance m { pc := pc, poller := p } armed armed' (fun _ => False) log where
  timed :=
    { inv := hinv
      tracked := htracked
      sent := fun n hn => by
        change 0 ≤ (p.node n).fd
        rw [hfd]
        exact h.sent n (hsent n hn)
      hands := fun n hn hexpires => by
        change 0 ≤ (p.node n).fd
        rw [hfd]
        exact hhands n hn hexpires
      timers := fun n hn htimer => by
        change (p.node n).fd = -1
        rw [hfd]
        exact h.timers n (lt_of_lt_of_eq hn hcount) ((hoperation n).symm.trans htimer) }
  count := hcount.ge
  log := hlog
  timers := fun n htimer =>
    ⟨⟨lt_of_lt_of_eq htimer.1 hcount.symm, (hoperation n).trans htimer.2⟩, hsteps n htimer⟩
  fresh := fun n htimer => .inl ⟨lt_of_lt_of_eq htimer.1 hcount, (hoperation n).symm.trans htimer.2⟩

theorem Timed.not_timer (h : Timed m armed) {n j : Nat} (htimer : IsTimer m.poller n)
    (hj : 0 ≤ (m.poller.node j).fd) : n ≠ j := by
  rintro rfl
  rw [h.timers n htimer.1 htimer.2] at hj
  omega

theorem not_mem_nil_held {n : Nat} {pc' : Pc} (hpc : held pc = []) (hpc' : held pc' = []) :
    n ∈ held pc' ↔ n ∈ held pc := by rw [hpc, hpc']

theorem handleEvent_frame (io : Io) (event : EventData) (batch : Batch) (p : Poller) :
    ∃ log, (p.handleEvent io event batch).2 = { p with log := p.log ++ log }
      ∧ (∀ action ∈ log, ∀ n, ¬ action.hands n) ∧ held (p.handleEvent io event batch).1 = [] := by
  have hnone : ∃ log, p = { p with log := p.log ++ log } ∧ ∀ action ∈ log, ∀ n, ¬ Action.hands n action :=
    ⟨[], by rw [List.append_nil], fun _ hmem => absurd hmem List.not_mem_nil⟩
  cases event with
  | timer =>
      obtain ⟨log, heq, hlog⟩ := hnone
      exact ⟨log, heq, hlog, rfl⟩
  | pipe =>
      obtain ⟨log, heq, hlog⟩ := hnone
      exact ⟨log, heq, hlog, rfl⟩
  | node n =>
      simp only [Poller.handleEvent]
      split
      · refine ⟨.handleRead n :: List.replicate (readLoop io.reads).1 (.message n), ?_, ?_, ?_⟩
        · split
          all_goals simp [Poller.recordMessages, Poller.record]
        · intro action haction j
          obtain rfl | hmessage := List.mem_cons.mp haction
          · exact id
          · rw [List.eq_of_mem_replicate hmessage]
            exact id
        · split
          all_goals rfl
      · refine ⟨[.handleConnect n], ?_, ?_, ?_⟩
        · split_ifs
          all_goals rfl
        · intro action haction j
          rw [List.mem_singleton.mp haction]
          exact id
        · split_ifs
          all_goals rfl
      · obtain ⟨log, heq, hlog⟩ := hnone
        exact ⟨log, heq, hlog, rfl⟩

/-- The thread has found the timers that have expired, and no others. -/
theorem Timed.timeout {batch : Batch} (h : Timed { pc := .timeout batch, poller := p } armed)
    (hinv : Inv { pc := .timeoutResults (p.expire batch.now).1 batch, poller := (p.expire batch.now).2 }) :
    Advance { pc := .timeout batch, poller := p }
      { pc := .timeoutResults (p.expire batch.now).1 batch, poller := (p.expire batch.now).2 } armed
      (p.armedAfter armed (.handleTimeout batch.now)) (fun _ => False) [] := by
  have hexact := h.tracked.expiresExactly batch.now
  obtain ⟨hexpired, -⟩ := h.tracked.toQueued.expire batch.now
  have hpipe : (p.expire batch.now).2.pipe = p.pipe := (h.inv.nodes.links.droppedAll_expire batch.now).pipe
  refine h.thread hinv (h.tracked.expire batch.now) (by rw [List.append_nil]; exact hexpired.log) hexpired.count
    (fun n => by rw [hexpired.node]) (fun n => by rw [hexpired.node]) ?_ (fun n _ hexpires => absurd trivial hexpires) ?_
  · intro n hn
    rw [sentNodes, hpipe] at hn
    exact hn
  · intro n htimer
    cases harmed : armed n with
    | none =>
        refine .quiet (by simp [Poller.armedAfter, harmed]) (iff_of_false ?_ List.not_mem_nil)
          fun _ hmem => absurd hmem List.not_mem_nil
        intro hmem
        obtain ⟨d, hd, -⟩ := (hexact.mem_iff n).mp hmem
        rw [harmed] at hd
        cases hd
    | some d =>
        by_cases hdue : timeoutCmp d batch.now < 0
        · exact .fired batch d rfl harmed hdue (by simp [Poller.armedAfter, harmed, hdue])
            ((hexact.mem_iff n).mpr ⟨d, harmed, hdue⟩) rfl
        · refine .quiet (by simp [Poller.armedAfter, harmed, hdue]) (iff_of_false ?_ List.not_mem_nil)
            fun _ hmem => absurd hmem List.not_mem_nil
          intro hmem
          obtain ⟨d', hd', hdue'⟩ := (hexact.mem_iff n).mp hmem
          obtain rfl : d = d' := Option.some.inj (harmed.symm.trans hd')
          exact hdue hdue'

theorem Timed.finish (h : Timed m armed) {n : Nat} {state : ResultState} {error : Int}
    (hinv : Inv { pc := pc, poller := (m.poller.setResult n state error).addResult n })
    (hhands : ∀ j ∈ held pc, ¬ expires pc → 0 ≤ (m.poller.node j).fd)
    (hsteps : ∀ j, IsTimer m.poller j → TimerStep m
      { pc := pc, poller := (m.poller.setResult n state error).addResult n } armed armed
      [.addResult n (some state) (some error)] j) :
    Advance m { pc := pc, poller := (m.poller.setResult n state error).addResult n } armed armed (fun _ => False)
      [.addResult n (some state) (some error)] := by
  refine h.thread hinv (h.tracked.setResult n state error) ?_ rfl (setNode_field PollerNode.fd (by rfl))
    (setNode_field PollerNode.operation (by rfl)) (fun _ hn => hn) hhands hsteps
  have hnode : (m.poller.setResult n state error).node n
      = { m.poller.node n with state := some state, error := some error } := setNode_node_self n _ m.poller
  rw [Poller.addResult, hnode]
  rfl

theorem Timed.removing {n : Nat} {state : ResultState} {error : Int} {batch : Batch} {io : Io} {result : Pc × Poller}
    (h : Timed { pc := .removing n state error batch, poller := p } armed)
    (hstep : threadStep io (.removing n state error batch) p = some result)
    (hinv : Inv { pc := result.1, poller := result.2 }) :
    Advance { pc := .removing n state error batch, poller := p } { pc := result.1, poller := result.2 } armed
      (p.armedAfter armed (.removeNode n)) (fun _ => False) [.removeNode n] := by
  have hself : n ∈ n :: batchNodes batch.rest := List.mem_cons_self
  have hfd : 0 ≤ (p.node n).fd := h.inv.watched.fd n hself
  have halive := h.inv.watched.alive n hself (h.inv.dispatched n state error batch rfl)
  have howned : n ∈ p.linked ∨ (p.node n).removed = true := halive.imp_right (h.inv.nodes.marked n)
  have hrecord : Tracked (p.record (.removeNode n)) armed :=
    h.tracked.congr rfl rfl rfl rfl rfl rfl (fun _ => rfl) (fun _ => rfl) fun _ => rfl
  have htracked := hrecord.removeNode hfd howned
  have harmed : ∀ j, IsTimer p j → p.armedAfter armed (.removeNode n) j = armed j := by
    intro j hj
    simp only [Poller.armedAfter]
    split_ifs
    · rfl
    · exact Function.update_of_ne (h.not_timer hj hfd) ..
  have hnodes : Nodes (p.record (.removeNode n)) [] := by
    apply h.inv.nodes.record
    · exact fun _ hhands => hhands
    · rintro j rfl
      exact (h.inv.nodes.not_handed_of_linked halive).2
  simp only [threadStep] at hstep
  obtain hremoved | ⟨q, hremoved, hdropped⟩ := hnodes.removeNode halive hfd
  · rw [hremoved] at hstep htracked
    cases hstep
    refine h.thread hinv htracked rfl rfl (fun _ => rfl) (fun _ => rfl) (fun _ hn => hn)
      (fun j hj => absurd hj List.not_mem_nil) fun j hj => ?_
    exact .quiet (harmed j hj) Iff.rfl fun action haction => by rw [List.mem_singleton.mp haction]; exact id
  · rw [hremoved] at hstep htracked
    cases hstep
    refine h.thread hinv htracked hdropped.log hdropped.count hdropped.fd hdropped.operation ?_ ?_ fun j hj => ?_
    · intro j hj
      rw [sentNodes, hdropped.pipe] at hj
      exact hj
    · intro j hj _
      rw [List.mem_singleton.mp hj]
      exact hfd
    · refine .quiet (harmed j hj) (iff_of_false ?_ List.not_mem_nil) fun action haction => by
        rw [List.mem_singleton.mp haction]; exact id
      intro hmem
      exact h.not_timer hj hfd (List.mem_singleton.mp hmem)

theorem Timed.threadStep (h : Timed m armed) {io : Io} (hdeferred : DeferredAt m.poller m.pc)
    {result : Pc × Poller} (hstep : threadStep io m.pc m.poller = some result) :
    ∃ log, Advance m { pc := result.1, poller := result.2 } armed (m.armedAfter armed (.thread io)) (fun _ => False)
      log := by
  have hinv := h.inv.threadStep hdeferred hstep
  obtain ⟨pc, p⟩ := m
  have hlogged : ∀ log : List Action, Tracked { p with log := log } armed := fun _ =>
    h.tracked.congr rfl rfl rfl rfl rfl rfl (fun _ => rfl) (fun _ => rfl) fun _ => rfl
  have hnil : ∀ n, ∀ action ∈ ([] : List Action), ¬ action.hands n := fun _ _ hmem => absurd hmem List.not_mem_nil
  cases pc with
  | setTimer =>
      cases hstep
      obtain ⟨timer, htimer⟩ := setTimer_eq (p.record .setTimer)
      refine ⟨[.setTimer], ?_⟩
      refine h.thread hinv ?_ (by rw [htimer]; rfl) (by rw [htimer]; rfl) (fun _ => by rw [htimer]; rfl)
        (fun _ => by rw [htimer]; rfl) (fun n hn => by rw [htimer] at hn; exact hn)
        (fun _ hn => absurd hn List.not_mem_nil) fun n _ => ?_
      · rw [htimer]
        exact h.tracked.congr rfl rfl rfl rfl rfl rfl (fun _ => rfl) (fun _ => rfl) fun _ => rfl
      · exact .quiet rfl Iff.rfl fun action haction => by rw [List.mem_singleton.mp haction]; exact id
  | wait =>
      obtain ⟨events, -, rfl⟩ := Option.map_eq_some_iff.1 hstep
      refine ⟨[.wait events], h.thread hinv (hlogged _) rfl rfl (fun _ => rfl) (fun _ => rfl) (fun _ hn => hn)
        (fun _ hn => absurd hn List.not_mem_nil) fun n _ => ?_⟩
      exact .quiet rfl Iff.rfl fun action haction => by rw [List.mem_singleton.mp haction]; exact id
  | event batch =>
      obtain ⟨now, rest, hasPipe⟩ := batch
      cases rest with
      | nil =>
          cases hstep
          exact ⟨[], h.thread hinv h.tracked (List.append_nil _).symm rfl (fun _ => rfl) (fun _ => rfl)
            (fun _ hn => hn) (fun _ hn => absurd hn List.not_mem_nil) fun n _ => .quiet rfl Iff.rfl (hnil n)⟩
      | cons event rest =>
          cases hstep
          obtain ⟨log, heq, hlog, hheld⟩ := handleEvent_frame io event ⟨now, rest, hasPipe⟩ p
          refine ⟨log, h.thread hinv (by rw [heq]; exact hlogged _) (by rw [heq]) (by rw [heq])
            (fun _ => by rw [heq]) (fun _ => by rw [heq]) (fun n hn => by rw [heq] at hn; exact hn)
            (fun n hn => absurd hn (by rw [hheld]; exact List.not_mem_nil)) fun n _ => ?_⟩
          exact .quiet rfl (not_mem_nil_held rfl hheld) fun action haction => hlog action haction n
  | removing n state error batch => exact ⟨_, h.removing hstep hinv⟩
  | finishing n state error batch =>
      cases hstep
      have hfd : 0 ≤ (p.node n).fd := h.hands n List.mem_cons_self id
      refine ⟨_, h.finish hinv (fun _ hj => absurd hj List.not_mem_nil) fun j hj => ?_⟩
      refine .quiet rfl (iff_of_false List.not_mem_nil fun hmem => ?_) fun action haction hhands => ?_
      · exact h.not_timer hj hfd (List.mem_singleton.mp hmem)
      · rw [List.mem_singleton.mp haction] at hhands
        exact h.not_timer hj hfd hhands.symm
  | checkPipe batch =>
      simp only [Kernel.threadStep] at hstep
      split_ifs at hstep with hpipe hempty
      · cases hstep
        have hread : ∀ n ∈ p.readPipe.1.filterMap (fun pointer => pointer), n ∈ p.sentNodes := by
          intro n hn
          rw [sentNodes_readPipe]
          exact List.mem_append_left _ hn
        refine ⟨[.readPipe p.readPipe.1], h.thread hinv ?_ rfl rfl (fun _ => rfl) (fun _ => rfl) ?_ ?_ fun n hn => ?_⟩
        · exact h.tracked.congr rfl rfl rfl rfl rfl rfl (fun _ => rfl) (fun _ => rfl) fun _ => rfl
        · intro n hn
          rw [sentNodes_readPipe]
          exact List.mem_append_right _ hn
        · exact fun n hn _ => h.sent n (hread n hn)
        · refine .quiet rfl (iff_of_false (fun hmem => ?_) List.not_mem_nil) fun action haction => by
            rw [List.mem_singleton.mp haction]; exact id
          exact h.not_timer hn (h.sent n (hread n hmem)) rfl
      · cases hstep
        exact ⟨[], h.thread hinv h.tracked (List.append_nil _).symm rfl (fun _ => rfl) (fun _ => rfl)
          (fun _ hn => hn) (fun _ hn => absurd hn List.not_mem_nil) fun n _ => .quiet rfl Iff.rfl (hnil n)⟩
  | pipeResults pointers stop batch =>
      cases pointers with
      | nil =>
          simp only [Kernel.threadStep] at hstep
          split_ifs at hstep
          all_goals
            cases hstep
            exact ⟨[], h.thread hinv h.tracked (List.append_nil _).symm rfl (fun _ => rfl) (fun _ => rfl)
              (fun _ hn => hn) (fun _ hn => absurd hn List.not_mem_nil) fun n _ => .quiet rfl Iff.rfl (hnil n)⟩
      | cons pointer rest =>
          cases pointer with
          | none =>
              cases hstep
              exact ⟨[], h.thread hinv h.tracked (List.append_nil _).symm rfl (fun _ => rfl) (fun _ => rfl)
                (fun _ hn => hn) (fun n hn _ => h.hands n hn id) fun n _ => .quiet rfl Iff.rfl (hnil n)⟩
          | some n =>
              cases hstep
              have hfd : 0 ≤ (p.node n).fd := h.hands n List.mem_cons_self id
              refine ⟨[.addResult n (p.node n).state (p.node n).error], h.thread hinv (hlogged _) rfl rfl
                (fun _ => rfl) (fun _ => rfl) (fun _ hj => hj)
                (fun j hj _ => h.hands j (List.mem_cons_of_mem n hj) id) fun j hj => ?_⟩
              refine .quiet rfl ?_ fun action haction hhands => ?_
              · exact ⟨List.mem_cons_of_mem n, fun hmem =>
                  (List.mem_cons.mp hmem).resolve_left (h.not_timer hj hfd)⟩
              · rw [List.mem_singleton.mp haction] at hhands
                exact h.not_timer hj hfd hhands.symm
  | timeout batch =>
      cases hstep
      exact ⟨[], h.timeout hinv⟩
  | timeoutResults expired batch =>
      cases expired with
      | nil =>
          cases hstep
          exact ⟨[], h.thread hinv h.tracked (List.append_nil _).symm rfl (fun _ => rfl) (fun _ => rfl)
            (fun _ hn => hn) (fun _ hn => absurd hn List.not_mem_nil) fun n _ => .quiet rfl Iff.rfl (hnil n)⟩
      | cons n rest =>
          cases hstep
          refine ⟨_, h.finish hinv (fun _ _ hexpires => absurd trivial hexpires) fun j _ => ?_⟩
          have hnodup : (n :: rest).Nodup :=
            (List.nodup_append.1 (List.nodup_append.1 (List.nodup_append.1 h.inv.nodes.nodup).2.1).2.1).1
          by_cases hj : j = n
          · subst hj
            exact .handed rfl List.mem_cons_self (List.nodup_cons.mp hnodup).1 rfl
          · refine .quiet rfl ⟨List.mem_cons_of_mem n, fun hmem => (List.mem_cons.mp hmem).resolve_left hj⟩
              fun action haction hhands => ?_
            rw [List.mem_singleton.mp haction] at hhands
            exact hj hhands.symm
  | returned => cases hstep

theorem now_of_handleEvent (io : Io) (event : EventData) (batch : Batch) (p : Poller) :
    ∀ later ∈ batchOf (p.handleEvent io event batch).1, later.now = batch.now := by
  intro later hlater
  cases event with
  | timer => rw [← Option.some.inj hlater]
  | pipe => rw [← Option.some.inj hlater]
  | node n =>
      simp only [Poller.handleEvent] at hlater
      split at hlater
      · split at hlater
        all_goals rw [← Option.some.inj hlater]
      · split_ifs at hlater
        all_goals rw [← Option.some.inj hlater]
      · rw [← Option.some.inj hlater]

/-- The time of a batch is what the clock said when the thread woke up. -/
theorem now_of_threadStep {io : Io} {result : Pc × Poller} (hstep : Kernel.threadStep io pc p = some result) :
    ∀ later ∈ batchOf result.1, later.now = io.now ∨ ∃ batch ∈ batchOf pc, later.now = batch.now := by
  intro later hlater
  cases pc with
  | setTimer =>
      cases hstep
      cases hlater
  | wait =>
      obtain ⟨events, -, rfl⟩ := Option.map_eq_some_iff.1 hstep
      rw [← Option.some.inj hlater]
      exact .inl rfl
  | event batch =>
      obtain ⟨now, rest, hasPipe⟩ := batch
      cases rest with
      | nil =>
          cases hstep
          cases hlater
      | cons event rest =>
          cases hstep
          exact .inr ⟨_, rfl, now_of_handleEvent io event ⟨now, rest, hasPipe⟩ p later hlater⟩
  | removing n state error batch =>
      simp only [Kernel.threadStep] at hstep
      split_ifs at hstep
      all_goals
        cases hstep
        exact .inr ⟨batch, rfl, by rw [← Option.some.inj hlater]⟩
  | finishing n state error batch =>
      cases hstep
      exact .inr ⟨batch, rfl, by rw [← Option.some.inj hlater]⟩
  | checkPipe batch =>
      simp only [Kernel.threadStep] at hstep
      split_ifs at hstep
      all_goals
        cases hstep
        exact .inr ⟨batch, rfl, by rw [← Option.some.inj hlater]⟩
  | pipeResults pointers stop batch =>
      cases pointers with
      | nil =>
          simp only [Kernel.threadStep] at hstep
          split_ifs at hstep
          · cases hstep
            cases hlater
          · cases hstep
            exact .inr ⟨batch, rfl, by rw [← Option.some.inj hlater]⟩
      | cons pointer rest =>
          cases pointer with
          | none =>
              cases hstep
              exact .inr ⟨batch, rfl, by rw [← Option.some.inj hlater]⟩
          | some n =>
              cases hstep
              exact .inr ⟨batch, rfl, by rw [← Option.some.inj hlater]⟩
  | timeout batch =>
      cases hstep
      exact .inr ⟨batch, rfl, by rw [← Option.some.inj hlater]⟩
  | timeoutResults expired batch =>
      cases expired with
      | nil =>
          cases hstep
          exact .inr ⟨batch, rfl, by rw [← Option.some.inj hlater]⟩
      | cons n rest =>
          cases hstep
          exact .inr ⟨batch, rfl, by rw [← Option.some.inj hlater]⟩
  | returned => cases hstep

end Thread

theorem Timed.count_eq_one {m : Machine} {armed : Nat → Option Timespec} (h : Timed m armed) {n : Nat}
    (hplace : armed n ≠ none ∨ n ∈ held m.pc ∨ n ∈ handed m.poller.log) :
    m.poller.timed.count n + (held m.pc).count n + (handed m.poller.log).count n = 1 := by
  have hsublist : (m.poller.timed ++ (held m.pc ++ handed m.poller.log)).Sublist (m.poller.places (held m.pc)) := by
    have htimed : m.poller.timed.Sublist m.poller.linked :=
      (List.Sublist.refl _).append (List.sublist_append_left _ _)
    exact htimed.append (List.sublist_append_right _ _)
  have hmem : n ∈ m.poller.timed ++ (held m.pc ++ handed m.poller.log) := by
    obtain harmed | hheld | hhanded := hplace
    · refine List.mem_append_left _ ?_
      by_contra hout
      exact harmed (by rw [h.tracked.armed n, if_neg hout])
    · exact List.mem_append_right _ (List.mem_append_left _ hheld)
    · exact List.mem_append_right _ (List.mem_append_right _ hhanded)
  have hcount := List.count_eq_one_of_mem (h.inv.nodes.nodup.sublist hsublist) hmem
  rw [List.count_append, List.count_append] at hcount
  omega

end Machine

end WorkflowModel.Kernel
