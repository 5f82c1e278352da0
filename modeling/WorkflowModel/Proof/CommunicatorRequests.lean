import WorkflowModel.Proof.CommunicatorSteps

/-!
# Steps of the poller and of the requesting threads

The poller and a requesting thread change one entry as a handler thread does. The poller only passes on the
part it has, until a reply is complete. A requesting thread gives its session to an entry, which from then on
owes it an answer.
-/

namespace WorkflowModel.Kernel.Communicator.State

variable {s s' : State} {e : Nat}

/-- A step that changes one entry, and no session and no answer. -/
theorem kept_of_entry (hs : s.Sound) (hlt : e < s.launched) {k k' : Option Kind}
    (hmoved : Moved s s' (k.map (e, ·)) (k'.map (e, ·)))
    (hentries : ∀ e', e' ≠ e → s'.entries e' = s.entries e')
    (htarget : (s'.entries e).target = (s.entries e).target)
    (hsession : (s'.entries e).session = (s.entries e).session) (hlaunched : s'.launched = s.launched)
    (hidle : s'.idleList = s.idleList) (hlog : s'.log = s.log)
    (hbonds : s'.sessions.map Session.bond = s.sessions.map Session.bond)
    (hvoices : s'.handlers.map HandlerPc.voice = s.handlers.map HandlerPc.voice)
    (hsending : ∀ session ∈ s'.sessions, ∀ e', session.pc = .sending e' →
      ∃ session' ∈ s.sessions, session'.pc = .sending e' ∧ session'.target = session.target)
    (hresults : ∀ result, result ∈ s'.pipe ∨ result ∈ s'.queue ∨ .took result ∈ s'.handlers →
      (result ∈ s.pipe ∨ result ∈ s.queue ∨ .took result ∈ s.handlers) ∨ result.Ok)
    (hsucceeding : ∀ e' σ, .succeeding e' σ ∈ s'.handlers → .succeeding e' σ ∈ s.handlers)
    (hok : (s'.standing e).Ok ∧ (s'.standing e).debt = (s.standing e).debt) : Kept s s' := by
  have habout := hs.about hmoved hentries htarget hlaunched hidle hlog
  refine Kept.of_ledger_eq (habout.sound hs hlt hok.1 ?_ ?_ ?_) ?_
  · intro result hmem
    rcases hresults result hmem with hmem | hresult
    · exact hs.results result hmem
    · exact hresult
  · intro session hmem e' hpc
    obtain ⟨session', hmem', hpc', htarget'⟩ := hsending session hmem e' hpc
    rw [← htarget']
    exact hs.sending session' hmem' e' hpc'
  · intro e' σ hmem
    rw [habout.session_eq hsession]
    exact hs.succeeding e' σ (hsucceeding e' σ hmem)
  · exact Ledger.ext (habout.debts_of_eq hok.2) habout.targets hbonds hvoices hlog

theorem sameLog_of_log_eq (hlog : s'.log = s.log) : Standing.SameLog (s.standing e) (s'.standing e) := by
  simp [Standing.SameLog, standing, hlog]

theorem listed_of_eq (hidle : s'.idleList = s.idleList)
    (htarget : (s'.entries e).target = (s.entries e).target) :
    (s'.standing e).listed = (s.standing e).listed := by
  simp [standing, hidle, htarget]

theorem moved_finish {node : Registration} (hnode : (s.entries e).node = some node) {state : ResultState}
    (hstate : state ≠ .success) (error : Int) : Moved s (s.finish e node.operation state error) none none := by
  have hentry := moved_setEntry s e { s.entries e with node := none }
  rw [hnode] at hentry
  have hqueue := moved_addQueue (s.setEntry e { s.entries e with node := none })
    { entry := e, operation := node.operation, state := state, error := error }
  have hkind : Result.kind { entry := e, operation := node.operation, state := state, error := error }
      = node.kind := by
    simp [Result.kind, Registration.kind, hstate]
  rw [hkind] at hqueue
  exact (hentry.trans hqueue).same none

theorem kept_finish (hs : s.Sound) {node : Registration} (hnode : (s.entries e).node = some node)
    {state : ResultState} (hstate : state = .finished ∨ state = .error) (error : Int) :
    Kept s (s.finish e node.operation state error) := by
  have hsuccess : state ≠ .success := by
    rcases hstate with rfl | rfl <;> simp
  have hmoved : Moved s (s.finish e node.operation state error) ((none : Option Kind).map (e, ·))
      ((none : Option Kind).map (e, ·)) := moved_finish hnode hsuccess error
  refine kept_of_entry hs (hs.lt_launched (count_pos_of_node hnode)) hmoved ?_ ?_ ?_ rfl rfl rfl rfl
    rfl ?_ ?_ ?_ ?_
  · intro e' hne
    simp [finish, setEntry, hne]
  · simp [finish, setEntry]
  · simp [finish, setEntry]
  · intro session hmem e' hpc
    exact ⟨session, hmem, hpc, rfl⟩
  · rintro result (hmem | hmem | hmem)
    · exact .inl (.inl hmem)
    · rcases List.mem_append.1 hmem with hmem | hmem
      · exact .inl (.inr (.inl hmem))
      · refine .inr ?_
        rw [List.mem_singleton.1 hmem]
        rcases hstate with rfl | rfl <;> simp [Result.Ok]
    · exact .inl (.inr (.inr hmem))
  · intro e' σ hmem
    exact hmem
  · have hentry : ((s.finish e node.operation state error).standing e).entry
        = { (s.standing e).entry with node := none } := by
      simp [standing, finish, setEntry]
    refine (hs.ok e).setNode hmoved.shift.of_eq hentry (listed_of_eq rfl ?_) (sameLog_of_log_eq rfl) (by simp)
    simp [finish, setEntry]

/-- The poller thread gets further with the next message. -/
theorem kept_setPhase (hs : s.Sound) {phase phase' : ReadPhase}
    (hnode : (s.entries e).node = some { operation := .read, phase := phase })
    (hmessage : phase' = .message → (s.entries e).state = .receiving) :
    Kept s (s.setEntry e { s.entries e with node := some { operation := .read, phase := phase' } }) := by
  have hentry := moved_setEntry s e
    { s.entries e with node := some { operation := .read, phase := phase' } }
  rw [hnode] at hentry
  have hmoved : Moved s (s.setEntry e
      { s.entries e with node := some { operation := .read, phase := phase' } })
      ((none : Option Kind).map (e, ·)) ((none : Option Kind).map (e, ·)) := hentry.same none
  refine kept_of_entry hs (hs.lt_launched (count_pos_of_node hnode)) hmoved ?_ ?_ ?_ rfl rfl rfl rfl rfl
    (fun session hmem e' hpc => ⟨session, hmem, hpc, rfl⟩) (fun result hmem => .inl hmem)
    (fun e' σ hmem => hmem) ?_
  · intro e' hne
    simp [setEntry, hne]
  · simp [setEntry]
  · simp [setEntry]
  · have hentry : ((s.setEntry e
        { s.entries e with node := some { operation := .read, phase := phase' } }).standing e).entry
        = { (s.standing e).entry with node := some { operation := .read, phase := phase' } } := by
      simp [standing, setEntry]
    refine (hs.ok e).setNode hmoved.shift.of_eq hentry (listed_of_eq rfl ?_) (sameLog_of_log_eq rfl) ?_
    · simp [setEntry]
    · intro hphase
      simp only [Option.some.injEq, Registration.mk.injEq, true_and] at hphase
      exact hmessage hphase

theorem kept_connectDone (hs : s.Sound) {error : Int} (hstep : s.connectDone e error = some s') :
    Kept s s' := by
  unfold connectDone at hstep
  split at hstep
  case h_1 phase hnode =>
    cases hstep
    refine kept_finish hs hnode ?_ error
    split <;> simp
  case h_2 => cases hstep

theorem kept_readDone (hs : s.Sound) {error : Int} (hstep : s.readDone e error = some s') :
    Kept s s' := by
  unfold readDone at hstep
  split at hstep
  case h_1 phase hnode =>
    cases hstep
    refine kept_finish hs hnode ?_ error
    split <;> simp
  case h_2 => cases hstep

theorem kept_readReady (hs : s.Sound) (hstep : s.readReady e = some s') : Kept s s' := by
  unfold readReady at hstep
  split at hstep
  case h_1 hnode =>
    split at hstep
    case isTrue => cases hstep
    case isFalse =>
      cases hstep
      exact kept_setPhase hs hnode (by simp)
  case h_2 => cases hstep

theorem kept_createMessage (hs : s.Sound) {created : Bool} {errno : Int}
    (hstep : s.createMessage e created errno = some s') : Kept s s' := by
  unfold createMessage at hstep
  split at hstep
  case h_1 hnode =>
    by_cases hreceiving : (s.entries e).state ≠ .receiving
    · rw [if_pos hreceiving] at hstep
      cases hstep
      exact kept_finish hs hnode (.inr rfl) ebadmsg
    · rw [if_neg hreceiving] at hstep
      split at hstep
      case isTrue =>
        cases hstep
        exact kept_setPhase hs hnode fun _ => not_not.1 hreceiving
      case isFalse =>
        cases hstep
        exact kept_finish hs hnode (.inr rfl) errno
  case h_2 => cases hstep

theorem mpollerDel_entries (s : State) (e : Nat) :
    (s.mpollerDel e).entries = Function.update s.entries e { s.entries e with node := none } := by
  unfold mpollerDel
  split
  case h_1 hnode =>
    funext e'
    by_cases he : e' = e
    · subst he
      rw [Function.update_self, ← hnode]
    · rw [Function.update_of_ne he]
  case h_2 => rfl

theorem moved_mpollerDel (s : State) (e : Nat) : Moved s (s.mpollerDel e) none none := by
  unfold mpollerDel
  split
  case h_1 =>
    intro e' k
    rfl
  case h_2 node hnode =>
    have hentry := moved_setEntry s e { s.entries e with node := none }
    rw [hnode] at hentry
    have hpipe := moved_addPipe (s.setEntry e { s.entries e with node := none })
      { entry := e, operation := node.operation, state := .deleted, error := 0 }
    have hkind : Result.kind { entry := e, operation := node.operation, state := .deleted, error := 0 }
        = node.kind := by
      simp [Result.kind, Registration.kind]
    rw [hkind] at hpipe
    exact (hentry.trans hpipe).same none

theorem mpollerDel_frame (s : State) (e : Nat) :
    (s.mpollerDel e).launched = s.launched ∧ (s.mpollerDel e).sessions = s.sessions
      ∧ (s.mpollerDel e).idleList = s.idleList ∧ (s.mpollerDel e).queue = s.queue
      ∧ (s.mpollerDel e).handlers = s.handlers ∧ (s.mpollerDel e).log = s.log := by
  unfold mpollerDel
  split <;> exact ⟨rfl, rfl, rfl, rfl, rfl, rfl⟩

theorem mem_pipe_mpollerDel {result : Result} (hmem : result ∈ (s.mpollerDel e).pipe) :
    result ∈ s.pipe ∨ result.Ok := by
  unfold mpollerDel at hmem
  split at hmem
  case h_1 => exact .inl hmem
  case h_2 =>
    rcases List.mem_append.1 hmem with hmem | hmem
    · exact .inl hmem
    · rw [List.mem_singleton.1 hmem]
      exact .inr (by simp [Result.Ok])

theorem map_modify_eq {α β : Type*} {f : α → α} {g : α → β} (h : ∀ a, g (f a) = g a) (l : List α) (i : Nat) :
    (l.modify i f).map g = l.map g := by
  ext1 j
  rw [List.getElem?_map, List.getElem?_map, List.getElem?_modify]
  split <;> cases l[j]? <;> simp [h]

/-- The state before the result of a complete reply is put in the queue. -/
def replied (s : State) (e : Nat) (timeout : Int) : State :=
  let s := s.setEntry e { s.entries e with
    state := .success, node := some { operation := .read, phase := .none } }
  let s := { s with sessions :=
    s.sessions.modify (s.entries e).session fun session => { session with timeout := timeout } }
  if timeout = 0 then s.mpollerDel e else s

theorem replied_frame (s : State) (e : Nat) (timeout : Int) :
    (s.replied e timeout).launched = s.launched ∧ (s.replied e timeout).idleList = s.idleList
      ∧ (s.replied e timeout).queue = s.queue ∧ (s.replied e timeout).handlers = s.handlers
      ∧ (s.replied e timeout).log = s.log
      ∧ (s.replied e timeout).sessions.map (fun session => (session.target, session.conn, session.pc))
        = s.sessions.map (fun session => (session.target, session.conn, session.pc)) := by
  have hkeep : ∀ σ, (s.sessions.modify σ fun session => { session with timeout := timeout }).map
      (fun session => (session.target, session.conn, session.pc))
      = s.sessions.map fun session => (session.target, session.conn, session.pc) :=
    map_modify_eq (by intro _; rfl) _
  unfold replied
  dsimp only
  split
  · obtain ⟨hlaunched, hsessions, hidle, hqueue, hhandlers, hlog⟩ := mpollerDel_frame
      { s.setEntry e { s.entries e with
        state := .success, node := some { operation := .read, phase := .none } } with
        sessions := s.sessions.modify ((s.setEntry e { s.entries e with
          state := .success, node := some { operation := .read, phase := .none } }).entries e).session
          fun session => { session with timeout := timeout } } e
    refine ⟨hlaunched, hidle, hqueue, hhandlers, hlog, ?_⟩
    exact (congrArg _ hsessions).trans (hkeep _)
  · exact ⟨rfl, rfl, rfl, rfl, rfl, hkeep _⟩

theorem replied_entries (s : State) (e : Nat) (timeout : Int) :
    ∃ node, node ≠ some { operation := .read, phase := .message } ∧ (s.replied e timeout).entries
      = Function.update s.entries e { s.entries e with state := .success, node := node } := by
  unfold replied
  dsimp only
  split
  · refine ⟨none, by simp, ?_⟩
    rw [mpollerDel_entries]
    simp [setEntry]
  · exact ⟨_, by simp, rfl⟩

theorem mem_pipe_replied {timeout : Int} {result : Result} (hmem : result ∈ (s.replied e timeout).pipe) :
    result ∈ s.pipe ∨ result.Ok := by
  unfold replied at hmem
  dsimp only at hmem
  split at hmem
  · rcases mem_pipe_mpollerDel hmem with hmem | hresult
    · exact .inl hmem
    · exact .inr hresult
  · exact .inl hmem

theorem moved_replied {timeout : Int}
    (hnode : (s.entries e).node = some { operation := .read, phase := .message }) :
    Moved s (s.replied e timeout) none none := by
  have hentry := moved_setEntry s e { s.entries e with
    state := .success, node := some { operation := .read, phase := .none } }
  rw [hnode] at hentry
  have hsessions : ∀ σ, Moved s { s.setEntry e { s.entries e with
      state := .success, node := some { operation := .read, phase := .none } } with
      sessions := s.sessions.modify σ fun session => { session with timeout := timeout } } none none := by
    intro σ e' k
    have hcount := (hentry.same none) e' k
    have hparts : (s.sessions.modify σ fun session => { session with timeout := timeout }).countP
        (fun session => session.pc.part = some (e', k))
        = s.sessions.countP fun session => session.pc.part = some (e', k) := by
      have hmap : (s.sessions.modify σ fun session => { session with timeout := timeout }).map Session.pc
          = s.sessions.map Session.pc := map_modify_eq (by intro _; rfl) _ _
      have hcount := congrArg (List.countP fun pc : RequestPc => pc.part = some (e', k)) hmap
      rw [List.countP_map, List.countP_map] at hcount
      exact hcount
    simp only [count, setEntry] at hcount ⊢
    rw [hparts]
    exact hcount
  unfold replied
  dsimp only
  split
  · exact (hsessions _).trans (moved_mpollerDel _ e)
  · exact hsessions _

theorem kept_append (hs : s.Sound) {timeout : Int} (hstep : s.append e timeout = some s') : Kept s s' := by
  unfold append at hstep
  split at hstep
  case h_2 => cases hstep
  case h_1 hnode =>
    cases hstep
    change Kept s { s.replied e timeout with queue :=
      (s.replied e timeout).queue ++ [{ entry := e, operation := .read, state := .success, error := 0 }] }
    obtain ⟨hlaunched, hidle, hqueue, hhandlers, hlog, hsessions⟩ := replied_frame s e timeout
    obtain ⟨node, hnode', hentries⟩ := replied_entries s e timeout
    have hqueued := moved_addQueue (s.replied e timeout)
      { entry := e, operation := .read, state := .success, error := 0 }
    have hmoved : Moved s { s.replied e timeout with queue := (s.replied e timeout).queue
        ++ [{ entry := e, operation := .read, state := .success, error := 0 }] }
        ((none : Option Kind).map (e, ·)) ((some Kind.success).map (e, ·)) :=
      (moved_replied hnode).trans hqueued
    have hpos := count_pos_of_node hnode
    refine kept_of_entry hs (hs.lt_launched hpos) hmoved ?_ ?_ ?_ hlaunched hidle hlog ?_ ?_ ?_ ?_ ?_ ?_
    · intro e' hne
      dsimp only
      rw [hentries, Function.update_of_ne hne]
    · dsimp only
      rw [hentries, Function.update_self]
    · dsimp only
      rw [hentries, Function.update_self]
    · have hbonds := congrArg (List.map fun x : Nat × Option Nat × RequestPc =>
        Session.bond { target := x.1, conn := x.2.1, timeout := 0, pc := x.2.2 }) hsessions
      rw [List.map_map, List.map_map] at hbonds
      exact hbonds
    · exact congrArg (List.map HandlerPc.voice) hhandlers
    · intro session hmem e' hpc
      have hmem' : (session.target, session.conn, session.pc) ∈
          s.sessions.map fun session => (session.target, session.conn, session.pc) := by
        rw [← hsessions]
        exact List.mem_map_of_mem hmem
      obtain ⟨session', hsession', heq⟩ := List.mem_map.1 hmem'
      simp only [Prod.mk.injEq] at heq
      exact ⟨session', hsession', heq.2.2.trans hpc, heq.1⟩
    · rintro result (hmem | hmem | hmem)
      · rcases mem_pipe_replied hmem with hmem | hresult
        · exact .inl (.inl hmem)
        · exact .inr hresult
      · rcases List.mem_append.1 hmem with hmem | hmem
        · rw [hqueue] at hmem
          exact .inl (.inr (.inl hmem))
        · rw [List.mem_singleton.1 hmem]
          exact .inr (by simp [Result.Ok])
      · dsimp only at hmem
        rw [hhandlers] at hmem
        exact .inl (.inr (.inr hmem))
    · intro e' σ hmem
      dsimp only at hmem
      rwa [hhandlers] at hmem
    · refine (hs.ok e).append hmoved.shift ?_ (listed_of_eq hidle ?_) (sameLog_of_log_eq hlog) hnode hpos hnode'
      · simp only [standing, hentries, Function.update_self]
      · dsimp only
        rw [hentries, Function.update_self]

theorem kept_deliver (hs : s.Sound) (hstep : s.deliver = some s') : Kept s s' := by
  unfold deliver at hstep
  split at hstep
  case h_1 => cases hstep
  case h_2 result rest hpipe =>
    cases hstep
    have hmoved : Moved s { s with pipe := rest, queue := s.queue ++ [result] }
        ((none : Option Kind).map (result.entry, ·)) ((none : Option Kind).map (result.entry, ·)) :=
      ((moved_dropPipe hpipe).trans (moved_addQueue { s with pipe := rest } result)).same none
    have hpos := count_pos_of_mem (s := s) (.inl (by rw [hpipe]; exact List.mem_cons_self))
    refine kept_of_entry hs (hs.lt_launched hpos) hmoved (fun _ _ => rfl) rfl rfl rfl rfl rfl rfl rfl
      (fun session hmem e' hpc => ⟨session, hmem, hpc, rfl⟩) ?_ (fun e' σ hmem => hmem) ?_
    · rintro result' (hmem | hmem | hmem)
      · refine .inl (.inl ?_)
        rw [hpipe]
        exact List.mem_cons_of_mem _ hmem
      · rcases List.mem_append.1 hmem with hmem | hmem
        · exact .inl (.inr (.inl hmem))
        · rw [List.mem_singleton.1 hmem, hpipe]
          exact .inl (.inl List.mem_cons_self)
      · exact .inl (.inr (.inr hmem))
    · exact (hs.ok _).setNode hmoved.shift.of_eq rfl rfl (sameLog_of_log_eq rfl) (hs.ok _).message

theorem kept_take (hs : s.Sound) {h : Nat} (hstep : s.take h = some s') : Kept s s' := by
  unfold take at hstep
  split at hstep
  case h_2 => cases hstep
  case h_1 result rest hpc hqueue =>
    cases hstep
    have hmoved : Moved s ({ s with queue := rest }.setHandler h (.took result))
        ((none : Option Kind).map (result.entry, ·)) ((none : Option Kind).map (result.entry, ·)) := by
      have hhandler := moved_setHandler (s := { s with queue := rest }) hpc (.took result)
      exact ((moved_dropQueue hqueue).trans hhandler).same none
    have hpos := count_pos_of_mem (s := s) (.inr (by rw [hqueue]; exact List.mem_cons_self))
    refine kept_of_entry hs (hs.lt_launched hpos) hmoved (fun _ _ => rfl) rfl rfl rfl rfl rfl rfl ?_
      (fun session hmem e' hpc => ⟨session, hmem, hpc, rfl⟩) ?_ ?_ ?_
    · simp only [setHandler, List.map_set]
      refine set_eq_self ?_
      simp [hpc, HandlerPc.voice]
    · rintro result' (hmem | hmem | hmem)
      · exact .inl (.inl hmem)
      · refine .inl (.inr (.inl ?_))
        rw [hqueue]
        exact List.mem_cons_of_mem _ hmem
      · rcases List.mem_or_eq_of_mem_set hmem with hmem | heq
        · exact .inl (.inr (.inr hmem))
        · cases heq
          refine .inl (.inr (.inl ?_))
          rw [hqueue]
          exact List.mem_cons_self
    · intro e' σ hmem
      rcases List.mem_or_eq_of_mem_set hmem with hmem | heq
      · exact hmem
      · cases heq
    · exact (hs.ok _).setNode hmoved.shift.of_eq rfl rfl (sameLog_of_log_eq rfl) (hs.ok _).message

theorem ledger_bonds_getElem? {σ : Nat} {session : Session} (hsession : s.sessions[σ]? = some session) :
    s.ledger.bonds[σ]? = some session.bond := by
  simp [ledger, hsession]

/-- No part of the entry has changed its kind, and nothing else is new but a session. -/
theorem kept_request_new (hs : s.Sound) (target : Nat) :
    Kept s { s with sessions :=
      s.sessions ++ [{ target := target, conn := none, timeout := 0, pc := .launching }] } := by
  have hmoved : Moved s { s with sessions :=
      s.sessions ++ [{ target := target, conn := none, timeout := 0, pc := .launching }] } none none :=
    moved_addSession s { target := target, conn := none, timeout := 0, pc := .launching }
  have hstanding : ∀ e, State.standing { s with sessions :=
      s.sessions ++ [{ target := target, conn := none, timeout := 0, pc := .launching }] } e = s.standing e := by
    intro e
    have hshift : Moved s { s with sessions :=
        s.sessions ++ [{ target := target, conn := none, timeout := 0, pc := .launching }] }
        ((none : Option Kind).map (e, ·)) ((none : Option Kind).map (e, ·)) := hmoved
    exact Standing.ext rfl hshift.shift.of_eq rfl rfl rfl
  refine ⟨⟨?_, ?_, hs.idle, hs.nodup, hs.results, ?_, hs.succeeding⟩, ?_⟩
  · intro e
    rw [hstanding]
    exact hs.ok e
  · intro e hle
    rw [hstanding]
    exact hs.fresh e hle
  · intro session hmem e hpc
    rcases List.mem_append.1 hmem with hmem | hmem
    · exact hs.sending session hmem e hpc
    · rw [List.mem_singleton.1 hmem] at hpc
      cases hpc
  · have hledger : State.ledger { s with sessions :=
        s.sessions ++ [{ target := target, conn := none, timeout := 0, pc := .launching }] }
        = { s.ledger with bonds := s.ledger.bonds ++ [{ target := target, conn := none, bound := false }] } := by
      refine Ledger.ext ?_ rfl ?_ rfl rfl
      · funext e
        exact congrArg Standing.debt (hstanding e)
      · simp [ledger, Session.bond]
    rw [hledger]
    exact .ask s.ledger target

theorem kept_request_idle (hs : s.Sound) {target : Nat} (hmem : e ∈ s.idleList target)
    (hfree : (s.entries e).mutex ≠ true) :
    Kept s { (s.setEntry e { s.entries e with mutex := true }).setIdleList target
      ((s.idleList target).erase e) with
      sessions := s.sessions ++ [{ target := target, conn := none, timeout := 0, pc := .sending e }] } := by
  obtain ⟨rfl, hlisted⟩ := (hs.mem_idleList_iff e target).1 hmem
  have hmoved : Moved s { (s.setEntry e { s.entries e with mutex := true }).setIdleList (s.entries e).target
      ((s.idleList (s.entries e).target).erase e) with
      sessions := s.sessions
        ++ [{ target := (s.entries e).target, conn := none, timeout := 0, pc := .sending e }] }
      ((none : Option Kind).map (e, ·)) ((some Kind.taken).map (e, ·)) := by
    have hentry : Moved s (s.setEntry e { s.entries e with mutex := true }) _ _ := moved_setEntry s e _
    have hsession := moved_addSession (s.setEntry e { s.entries e with mutex := true })
      { target := (s.entries e).target, conn := none, timeout := 0, pc := .sending e }
    exact (hentry.same none).trans hsession
  have habout : About s { (s.setEntry e { s.entries e with mutex := true }).setIdleList (s.entries e).target
      ((s.idleList (s.entries e).target).erase e) with
      sessions := s.sessions
        ++ [{ target := (s.entries e).target, conn := none, timeout := 0, pc := .sending e }] } e
      ((s.idleList (s.entries e).target).erase e) none (some .taken) [] := by
    refine ⟨hmoved, ?_, ?_, rfl, rfl, fun e' hne => List.mem_erase_of_ne hne, (hs.nodup _).erase e,
      (List.append_nil _).symm, by simp⟩
    · intro e' hne
      simp [setIdleList, setEntry, hne]
    · simp [setIdleList, setEntry]
  have hpos : 0 < s.count e .reading := by
    have hreading := ((hs.ok e).listed_iff.1 hlisted).2.1
    change 0 < (s.standing e).count .reading
    omega
  have hok := (hs.ok e).take (b := State.standing { (s.setEntry e { s.entries e with mutex := true }).setIdleList
    (s.entries e).target ((s.idleList (s.entries e).target).erase e) with
    sessions := s.sessions
      ++ [{ target := (s.entries e).target, conn := none, timeout := 0, pc := .sending e }] } e)
    hmoved.shift (by simp [standing, setIdleList, setEntry])
    (by simp [standing, setIdleList, setEntry, (hs.nodup (s.entries e).target).not_mem_erase])
    ⟨rfl, rfl⟩ hlisted (by simpa [standing] using hfree)
  refine ⟨habout.sound hs (hs.lt_launched hpos) hok.1 hs.results ?_ ?_, ?_⟩
  · intro session hmem' e' hpc
    rcases List.mem_append.1 hmem' with hmem' | hmem'
    · exact hs.sending session hmem' e' hpc
    · rw [List.mem_singleton.1 hmem'] at hpc ⊢
      cases hpc
      rfl
  · intro e' σ hmem'
    rw [habout.session_eq (by simp [setIdleList, setEntry])]
    exact hs.succeeding e' σ hmem'
  · have hledger : State.ledger { (s.setEntry e { s.entries e with mutex := true }).setIdleList
        (s.entries e).target ((s.idleList (s.entries e).target).erase e) with
        sessions := s.sessions
          ++ [{ target := (s.entries e).target, conn := none, timeout := 0, pc := .sending e }] }
        = { s.ledger with
          bonds := s.ledger.bonds ++ [{ target := (s.entries e).target, conn := none, bound := false }] } := by
      refine Ledger.ext (habout.debts_of_eq hok.2) habout.targets ?_ rfl rfl
      simp [ledger, Session.bond]
    rw [hledger]
    exact .ask s.ledger (s.entries e).target

theorem kept_request (hs : s.Sound) {target : Nat} (hstep : s.request target = some s') : Kept s s' := by
  unfold request at hstep
  split at hstep
  case h_1 e hfind =>
    split at hstep
    case isTrue => cases hstep
    case isFalse hfree =>
      cases hstep
      exact kept_request_idle hs (List.mem_of_find?_eq_some hfind) hfree
  case h_2 =>
    cases hstep
    exact kept_request_new hs target

theorem kept_unlock (hs : s.Sound) {σ : Nat} (hstep : s.unlock σ = some s') : Kept s s' := by
  unfold unlock at hstep
  split at hstep
  case h_2 => cases hstep
  case h_1 session hsession =>
    split at hstep
    case h_2 => cases hstep
    case h_1 e hpc =>
      cases hstep
      have hmoved : Moved s ((s.setEntry e { s.entries e with mutex := false }).setSession σ
          { session with pc := .accepted }) ((some Kind.leaving).map (e, ·)) ((none : Option Kind).map (e, ·)) := by
        have hentry : Moved s (s.setEntry e { s.entries e with mutex := false }) _ _ := moved_setEntry s e _
        have hset := moved_setSession (s := s.setEntry e { s.entries e with mutex := false }) hsession
          { session with pc := .accepted }
        rw [hpc] at hset
        exact (hentry.same _).trans hset
      have hpos : 0 < s.count e .leaving := count_pos_of_session hsession (by rw [hpc]; rfl)
      refine kept_of_entry hs (hs.lt_launched hpos) hmoved ?_ ?_ ?_ rfl rfl rfl ?_ rfl ?_
        (fun result hmem => .inl hmem) (fun e' σ hmem => hmem) ?_
      · intro e' hne
        simp [setSession, setEntry, hne]
      · simp [setSession, setEntry]
      · simp [setSession, setEntry]
      · simp only [setSession, setEntry, List.map_set]
        refine set_eq_self ?_
        simp [hsession, Session.bond, hpc]
      · intro session' hmem e' hpc'
        rcases List.mem_or_eq_of_mem_set hmem with hmem | heq
        · exact ⟨session', hmem, hpc', rfl⟩
        · rw [heq] at hpc'
          cases hpc'
      · refine (hs.ok e).leave hmoved.shift ?_ (listed_of_eq rfl ?_) (sameLog_of_log_eq rfl)
        · simp [standing, setSession, setEntry]
        · simp [setSession, setEntry]

theorem Sound.ne_of_taken (hs : s.Sound) {e' σ : Nat} (hpos : 0 < s.count e .taken)
    (hmem : .succeeding e' σ ∈ s.handlers) : e' ≠ e := by
  rintro rfl
  have hsuccess : 0 < s.count e' .success := count_pos_of_succeeding hmem
  have hstate := (hs.ok e').taken hpos
  have hzero := (hs.ok e').other (by rw [hstate]; simp) (by rw [hstate]; simp)
  change s.count e' .success = 0 at hzero
  omega

/-- The session is given to the entry. -/
theorem kept_bind (hs : s.Sound) {σ : Nat} {session : Session} (hsession : s.sessions[σ]? = some session)
    (hpc : session.pc = .sending e)
    (hmoved : Moved s s' ((some Kind.taken).map (e, ·)) ((some Kind.leaving).map (e, ·)))
    (hentries : ∀ e', e' ≠ e → s'.entries e' = s.entries e')
    (htarget : (s'.entries e).target = (s.entries e).target) (hlaunched : s'.launched = s.launched)
    (hidle : s'.idleList = s.idleList) (hlog : s'.log = s.log) (hhandlers : s'.handlers = s.handlers)
    (hsessions : s'.sessions = s.sessions.set σ { session with conn := some e, pc := .unlocking e })
    (hresults : ∀ result, result ∈ s'.pipe ∨ result ∈ s'.queue →
      (result ∈ s.pipe ∨ result ∈ s.queue) ∨ result.Ok)
    (hok : (s'.standing e).Ok ∧ (s.standing e).debt = none ∧ (s'.standing e).debt = some σ) :
    Kept s s' := by
  have hpos : 0 < s.count e .taken := count_pos_of_session hsession (by rw [hpc]; rfl)
  have habout := hs.about hmoved hentries htarget hlaunched hidle hlog
  have haim := hs.sending session (List.mem_of_getElem? hsession) e hpc
  refine ⟨habout.sound hs (hs.lt_launched hpos) hok.1 ?_ ?_ ?_, ?_⟩
  · rw [hhandlers]
    rintro result (hmem | hmem | hmem)
    · rcases hresults result (.inl hmem) with hold | hresult
      · exact hs.results result (hold.elim .inl fun h => .inr (.inl h))
      · exact hresult
    · rcases hresults result (.inr hmem) with hold | hresult
      · exact hs.results result (hold.elim .inl fun h => .inr (.inl h))
      · exact hresult
    · exact hs.results result (.inr (.inr hmem))
  · intro session' hmem e' hpc'
    rw [hsessions] at hmem
    rcases List.mem_or_eq_of_mem_set hmem with hmem | heq
    · exact hs.sending session' hmem e' hpc'
    · rw [heq] at hpc'
      cases hpc'
  · intro e' σ' hmem
    rw [hhandlers] at hmem
    rw [hentries e' (hs.ne_of_taken hpos hmem)]
    exact hs.succeeding e' σ' hmem
  · have htargets : Function.update s.ledger.targets e session.bond.target = s.ledger.targets := by
      rw [Function.update_eq_iff]
      exact ⟨haim, fun _ _ => rfl⟩
    have hbonds : s'.ledger.bonds = s.ledger.bonds.set σ { session.bond with conn := some e, bound := true } := by
      simp [ledger, hsessions, List.map_set, Session.bond]
    have hledger : s'.ledger = { s.ledger with
        debts := Function.update s.ledger.debts e (some σ)
        targets := Function.update s.ledger.targets e session.bond.target
        bonds := s.ledger.bonds.set σ { session.bond with conn := some e, bound := true } } := by
      refine Ledger.ext ?_ ?_ hbonds (congrArg (List.map HandlerPc.voice) hhandlers) hlog
      · rw [habout.debts, hok.2.2]
      · rw [habout.targets, htargets]
    rw [hledger]
    refine .bind s.ledger e σ session.bond (ledger_bonds_getElem? hsession) ?_ hok.2.1 ?_
    · simp [Session.bond, hpc]
    · intro voice _ _
      exact haim.symm

theorem setEntry_setSession_setEntry (s : State) (e σ : Nat) (entry entry' : ConnEntry) (session : Session) :
    ((s.setEntry e entry).setSession σ session).setEntry e entry'
      = (s.setEntry e entry').setSession σ session := by
  simp [setEntry, setSession]

theorem kept_send (hs : s.Sound) {σ : Nat} {out : Outgoing} (hwhole : sendMessage out ≤ 0)
    (hstep : s.send σ out = some s') : Kept s s' := by
  unfold send at hstep
  split at hstep
  case h_2 => cases hstep
  case h_1 session hsession =>
    split at hstep
    case h_2 => cases hstep
    case h_1 e hpc =>
      dsimp only at hstep
      have hmoved : ∀ entry : ConnEntry, entry.node = (s.entries e).node →
          Moved s ((s.setEntry e entry).setSession σ { session with conn := some e, pc := .unlocking e })
            ((some Kind.taken).map (e, ·)) ((some Kind.leaving).map (e, ·)) := by
        intro entry hnode
        have hset := moved_setEntry s e entry
        rw [hnode] at hset
        have hsessions := moved_setSession (s := s.setEntry e entry) hsession
          { session with conn := some e, pc := .unlocking e }
        rw [hpc] at hsessions
        exact (hset.same _).trans hsessions
      have hself : ((s.setEntry e { s.entries e with session := σ }).setSession σ
          { session with conn := some e, pc := .unlocking e }).entries e
          = { s.entries e with session := σ } := by
        simp [setSession, setEntry]
      rw [hself] at hstep
      by_cases hzero : sendMessage out = 0
      · rw [if_pos hzero, setEntry_setSession_setEntry] at hstep
        cases hstep
        have hmove := hmoved { s.entries e with session := σ, state := .receiving } rfl
        refine kept_bind hs hsession hpc hmove ?_ ?_ rfl rfl rfl rfl rfl (fun _ hmem => .inl hmem)
          ((hs.ok e).sendWhole hmove.shift ?_ (listed_of_eq rfl ?_) (sameLog_of_log_eq rfl))
        · intro e' hne
          simp [setSession, setEntry, hne]
        · simp [setSession, setEntry]
        · simp [standing, setSession, setEntry]
        · simp [setSession, setEntry]
      · rw [if_neg hzero, if_pos (by omega), setEntry_setSession_setEntry] at hstep
        cases hstep
        have hmove := hmoved { s.entries e with session := σ, error := out.errno } rfl
        have hentries := mpollerDel_entries ((s.setEntry e
          { s.entries e with session := σ, error := out.errno }).setSession σ
          { session with conn := some e, pc := .unlocking e }) e
        obtain ⟨hlaunched, hsessions, hidle, hqueue, hhandlers, hlog⟩ := mpollerDel_frame ((s.setEntry e
          { s.entries e with session := σ, error := out.errno }).setSession σ
          { session with conn := some e, pc := .unlocking e }) e
        have hdel := hmove.trans ((moved_mpollerDel _ e).same _)
        have hpipe : ∀ result, result ∈ (((s.setEntry e
            { s.entries e with session := σ, error := out.errno }).setSession σ
            { session with conn := some e, pc := .unlocking e }).mpollerDel e).pipe →
            result ∈ s.pipe ∨ result.Ok := by
          intro result hmem
          rcases mem_pipe_mpollerDel hmem with hmem | hresult
          · exact .inl hmem
          · exact .inr hresult
        generalize ((s.setEntry e { s.entries e with session := σ, error := out.errno }).setSession σ
          { session with conn := some e, pc := .unlocking e }).mpollerDel e = t
          at hentries hlaunched hsessions hidle hqueue hhandlers hlog hdel hpipe ⊢
        simp only [setSession, setEntry, Function.update_self, Function.update_idem] at hentries
        have hlast := moved_setEntry t e { t.entries e with state := .error }
        have hmove' := hdel.trans (hlast.same _)
        have hentry : ((t.setEntry e { t.entries e with state := .error }).standing e).entry
            = { (s.standing e).entry with
              session := σ, error := out.errno, state := .error, node := none } := by
          simp [standing, setEntry, hentries]
        refine kept_bind hs hsession hpc hmove' ?_ ?_ hlaunched hidle hlog hhandlers hsessions ?_
          ((hs.ok e).sendFailed hmove'.shift hentry (listed_of_eq hidle ?_) (sameLog_of_log_eq hlog))
        · intro e' hne
          simp [setEntry, hentries, hne]
        · simp [setEntry, hentries]
        · rintro result (hmem | hmem)
          · rcases hpipe result hmem with hmem | hresult
            · exact .inl (.inl hmem)
            · exact .inr hresult
          · exact .inl (.inr (hqueue ▸ hmem))
        · simp [setEntry, hentries]

theorem Sound.not_mem_idleList (hs : s.Sound) (τ : Nat) : s.launched ∉ s.idleList τ := by
  intro hmem
  have hlisted := ((hs.mem_idleList_iff _ τ).1 hmem).2
  rw [hs.fresh s.launched (Nat.le_refl _)] at hlisted
  cases hlisted

theorem Sound.fresh_entry (hs : s.Sound) : s.entries s.launched = blankEntry :=
  congrArg Standing.entry (hs.fresh s.launched (Nat.le_refl _))

theorem Sound.fresh_count (hs : s.Sound) (k : Kind) : s.count s.launched k = 0 :=
  congrFun (congrArg Standing.count (hs.fresh s.launched (Nat.le_refl _))) k

theorem Sound.fresh_voice (hs : s.Sound) {voice : Voice} (hvoice : some voice ∈ s.ledger.voices) :
    voice.entry ≠ s.launched := by
  obtain ⟨pc, hmem, hpc⟩ := List.mem_map.1 hvoice
  obtain ⟨h, hh⟩ := List.getElem?_of_mem hmem
  have hpart : ∃ k, pc.part = some (voice.entry, k) := by
    unfold HandlerPc.voice at hpc
    split at hpc <;> cases hpc <;> exact ⟨_, rfl⟩
  obtain ⟨k, hk⟩ := hpart
  have := hs.lt_launched (count_pos_of_handler hh hk)
  omega

/-- An entry is created, and a session gets another place in its request. -/
def created (s : State) (σ : Nat) (entry : ConnEntry) (session : Session) (events : List Event) : State :=
  { s with
    entries := Function.update s.entries s.launched entry
    launched := s.launched + 1
    sessions := s.sessions.set σ session
    log := s.log ++ events }

section Created

variable {σ : Nat} {entry : ConnEntry} {session session' : Session} {events : List Event}

theorem moved_created (hs : s.Sound) (hsession : s.sessions[σ]? = some session)
    (hpc : session.pc.part = none) (hpc' : session'.pc.part = none) :
    Moved s (s.created σ entry session' events) none
      (entry.node.map fun node => (s.launched, node.kind)) := by
  have hentry := moved_setEntry s s.launched entry
  rw [hs.fresh_entry] at hentry
  have hset := moved_setSession (s := s.setEntry s.launched entry) hsession session'
  rw [hpc, hpc'] at hset
  exact hentry.trans (hset.same _)

theorem created_entries_of_ne {e : Nat} (hne : e ≠ s.launched) :
    (s.created σ entry session' events).entries e = s.entries e := by
  simp [created, hne]

theorem created_standing_self (hs : s.Sound) :
    (s.created σ entry session' events).standing s.launched = {
      entry := entry
      count := (s.created σ entry session' events).count s.launched
      listed := false
      adds := events.countP (Event.isAddRead s.launched)
      frees := events.filterMap (Event.freedRef s.launched) } := by
  have hfresh := hs.fresh s.launched (Nat.le_refl _)
  have hadds : s.log.countP (Event.isAddRead s.launched) = 0 := congrArg Standing.adds hfresh
  have hfrees : s.log.filterMap (Event.freedRef s.launched) = [] := congrArg Standing.frees hfresh
  have hlisted := hs.not_mem_idleList entry.target
  simp [standing, created, hadds, hfrees, hlisted]

theorem created_standing_of_ne {k : Option Kind}
    (hmoved : Moved s (s.created σ entry session' events) ((none : Option Kind).map (s.launched, ·))
      (k.map (s.launched, ·)))
    (hevents : ∀ event ∈ events, ∀ e, e ≠ s.launched → event.entry ≠ some e) {e : Nat} (hne : e ≠ s.launched) :
    (s.created σ entry session' events).standing e = s.standing e :=
  standing_eq hmoved hne (created_entries_of_ne hne) Iff.rfl rfl fun event hevent => hevents event hevent e hne

theorem sound_created (hs : s.Sound) (hpc : ∀ e, session'.pc ≠ .sending e)
    (hframe : ∀ e, e ≠ s.launched → (s.created σ entry session' events).standing e = s.standing e)
    (hok : ((s.created σ entry session' events).standing s.launched).Ok) :
    (s.created σ entry session' events).Sound := by
  refine ⟨?_, ?_, ?_, hs.nodup, hs.results, ?_, ?_⟩
  · intro e
    by_cases he : e = s.launched
    · rw [he]
      exact hok
    · rw [hframe e he]
      exact hs.ok e
  · intro e hle
    have hlt : s.launched + 1 ≤ e := hle
    rw [hframe e (by omega)]
    exact hs.fresh e (by omega)
  · intro τ e hmem
    have he : e ≠ s.launched := by
      rintro rfl
      exact hs.not_mem_idleList τ hmem
    rw [created_entries_of_ne he]
    exact hs.idle τ e hmem
  · intro session'' hmem e hpc''
    rcases List.mem_or_eq_of_mem_set hmem with hmem | heq
    · have he : e ≠ s.launched := by
        rintro rfl
        obtain ⟨σ', hσ'⟩ := List.getElem?_of_mem hmem
        have hpos : 0 < s.count s.launched .taken := count_pos_of_session hσ' (by rw [hpc'']; rfl)
        have := hs.fresh_count .taken
        omega
      rw [created_entries_of_ne he]
      exact hs.sending session'' hmem e hpc''
    · rw [heq] at hpc''
      exact absurd hpc'' (hpc e)
  · intro e σ' hmem
    have he : e ≠ s.launched := by
      rintro rfl
      have hpos : 0 < s.count s.launched .success := count_pos_of_succeeding hmem
      have := hs.fresh_count .success
      omega
    rw [created_entries_of_ne he]
    exact hs.succeeding e σ' hmem

theorem ledger_created
    (hframe : ∀ e, e ≠ s.launched → (s.created σ entry session' events).standing e = s.standing e) :
    (s.created σ entry session' events).ledger = {
      debts := Function.update s.ledger.debts s.launched
        ((s.created σ entry session' events).standing s.launched).debt
      targets := Function.update s.ledger.targets s.launched entry.target
      bonds := s.ledger.bonds.set σ session'.bond
      voices := s.ledger.voices
      log := s.ledger.log ++ events } := by
  refine Ledger.ext ?_ ?_ List.map_set rfl rfl
  · funext e
    dsimp only
    by_cases he : e = s.launched
    · rw [he, Function.update_self]
      rfl
    · rw [Function.update_of_ne he]
      exact congrArg Standing.debt (hframe e he)
  · funext e
    dsimp only
    by_cases he : e = s.launched
    · rw [he, Function.update_self]
      simp [ledger, created]
    · rw [Function.update_of_ne he]
      simp [ledger, created, he]

end Created

theorem kept_launch_failed (hs : s.Sound) {σ : Nat} {session : Session}
    (hsession : s.sessions[σ]? = some session) (hpc : session.pc = .launching) :
    Kept s (s.setSession σ { session with pc := .refused }) := by
  have hmoved := moved_setSession hsession { session with pc := .refused }
  rw [hpc] at hmoved
  have hstanding : ∀ e, (s.setSession σ { session with pc := .refused }).standing e = s.standing e := by
    intro e
    have hshift : Moved s (s.setSession σ { session with pc := .refused })
        ((none : Option Kind).map (e, ·)) ((none : Option Kind).map (e, ·)) := hmoved
    exact Standing.ext rfl hshift.shift.of_eq rfl rfl rfl
  refine Kept.of_ledger_eq ⟨?_, ?_, hs.idle, hs.nodup, hs.results, ?_, hs.succeeding⟩ ?_
  · intro e
    rw [hstanding]
    exact hs.ok e
  · intro e hle
    rw [hstanding]
    exact hs.fresh e hle
  · intro session' hmem e hpc'
    rcases List.mem_or_eq_of_mem_set hmem with hmem | heq
    · exact hs.sending session' hmem e hpc'
    · rw [heq] at hpc'
      cases hpc'
  · refine Ledger.ext ?_ rfl ?_ rfl rfl
    · funext e
      exact congrArg Standing.debt (hstanding e)
    · simp only [ledger, setSession, List.map_set]
      refine set_eq_self ?_
      simp [hsession, Session.bond, hpc]

theorem Sound.fresh_debt (hs : s.Sound) : s.ledger.debts s.launched = none := by
  have hdebt := congrArg Standing.debt (hs.fresh s.launched (Nat.le_refl _))
  exact hdebt

theorem kept_launch_notAdded (hs : s.Sound) {σ : Nat} {session : Session}
    (hsession : s.sessions[σ]? = some session) (hpc : session.pc = .launching) :
    Kept s (s.created σ { launchedEntry σ session.target with released := true } { session with pc := .refused }
      [.releaseConn none s.launched 1]) := by
  have hmoved : Moved s (s.created σ { launchedEntry σ session.target with released := true }
      { session with pc := .refused } [.releaseConn none s.launched 1])
      ((none : Option Kind).map (s.launched, ·)) ((none : Option Kind).map (s.launched, ·)) :=
    moved_created hs hsession (by rw [hpc]; rfl) rfl
  have hframe : ∀ e, e ≠ s.launched → (s.created σ { launchedEntry σ session.target with released := true }
      { session with pc := .refused } [.releaseConn none s.launched 1]).standing e = s.standing e := by
    intro e hne
    refine created_standing_of_ne hmoved ?_ hne
    intro event hmem e' hne'
    rw [List.mem_singleton.1 hmem]
    simpa [Event.entry] using Ne.symm hne'
  have hcount : ∀ k, (s.created σ { launchedEntry σ session.target with released := true }
      { session with pc := .refused } [.releaseConn none s.launched 1]).count s.launched k = 0 := by
    intro k
    rw [hmoved.shift.of_eq]
    exact hs.fresh_count k
  have hself : (s.created σ { launchedEntry σ session.target with released := true }
      { session with pc := .refused } [.releaseConn none s.launched 1]).standing s.launched = _ :=
    created_standing_self hs
  have hok : ((s.created σ { launchedEntry σ session.target with released := true }
      { session with pc := .refused } [.releaseConn none s.launched 1]).standing s.launched).Ok := by
    rw [hself]
    exact Standing.ok_refused rfl rfl rfl rfl hcount rfl (by simp [Event.isAddRead]) (by simp [Event.freedRef])
  have hdebt : ((s.created σ { launchedEntry σ session.target with released := true }
      { session with pc := .refused } [.releaseConn none s.launched 1]).standing s.launched).debt = none := by
    rw [hself]
    simp [Standing.debt, Standing.Owes, hcount]
  refine ⟨sound_created hs (by simp) hframe hok, ?_⟩
  have hdebts : Function.update s.ledger.debts s.launched none = s.ledger.debts := by
    rw [← hs.fresh_debt]
    exact Function.update_eq_self _ _
  have hbonds : s.ledger.bonds.set σ (Session.bond { session with pc := .refused }) = s.ledger.bonds := by
    refine set_eq_self ?_
    rw [ledger_bonds_getElem? hsession]
    simp [Session.bond, hpc]
  rw [ledger_created hframe, hdebt, hdebts, hbonds]
  exact .refuse s.ledger s.launched session.target (.releaseConn none s.launched 1) hs.fresh_debt
    (fun voice hvoice => hs.fresh_voice hvoice) rfl rfl

theorem kept_launch_added (hs : s.Sound) {σ : Nat} {session : Session}
    (hsession : s.sessions[σ]? = some session) (hpc : session.pc = .launching) :
    Kept s (s.created σ
      { launchedEntry σ session.target with node := some { operation := .connect, phase := .none } }
      { session with conn := some s.launched, pc := .accepted } []) := by
  have hmoved : Moved s (s.created σ
      { launchedEntry σ session.target with node := some { operation := .connect, phase := .none } }
      { session with conn := some s.launched, pc := .accepted } [])
      ((none : Option Kind).map (s.launched, ·)) ((some Kind.opening).map (s.launched, ·)) :=
    moved_created hs hsession (by rw [hpc]; rfl) rfl
  have hframe : ∀ e, e ≠ s.launched → (s.created σ
      { launchedEntry σ session.target with node := some { operation := .connect, phase := .none } }
      { session with conn := some s.launched, pc := .accepted } []).standing e = s.standing e :=
    fun e hne => created_standing_of_ne hmoved (by simp) hne
  have hcount : ∀ k, (s.created σ
      { launchedEntry σ session.target with node := some { operation := .connect, phase := .none } }
      { session with conn := some s.launched, pc := .accepted } []).count s.launched k
      = if k = .opening then 1 else 0 := by
    intro k
    have hk := hmoved.shift k
    rw [hs.fresh_count] at hk
    simpa [eq_comm] using hk
  have hself : (s.created σ
      { launchedEntry σ session.target with node := some { operation := .connect, phase := .none } }
      { session with conn := some s.launched, pc := .accepted } []).standing s.launched = _ :=
    created_standing_self hs
  have hok : ((s.created σ
      { launchedEntry σ session.target with node := some { operation := .connect, phase := .none } }
      { session with conn := some s.launched, pc := .accepted } []).standing s.launched).Ok := by
    rw [hself]
    exact Standing.ok_launched rfl rfl rfl rfl (by simp) hcount rfl rfl rfl
  have hdebt : ((s.created σ
      { launchedEntry σ session.target with node := some { operation := .connect, phase := .none } }
      { session with conn := some s.launched, pc := .accepted } []).standing s.launched).debt = some σ := by
    rw [hself]
    exact Standing.debt_launched rfl hcount
  refine ⟨sound_created hs (by simp) hframe hok, ?_⟩
  rw [ledger_created hframe, hdebt, List.append_nil]
  have hbind := Ledger.Step.bind s.ledger s.launched σ session.bond (ledger_bonds_getElem? hsession)
    (by simp [Session.bond, hpc]) hs.fresh_debt
    (fun voice hvoice heq => absurd heq (hs.fresh_voice hvoice))
  exact hbind

theorem kept_launch (hs : s.Sound) {σ : Nat} {outcome : LaunchResult} (hstep : s.launch σ outcome = some s') :
    Kept s s' := by
  unfold launch at hstep
  split at hstep
  case h_2 => cases hstep
  case h_1 session hsession =>
    split at hstep
    case isFalse => cases hstep
    case isTrue hpc =>
      cases outcome with
      | failed =>
          cases hstep
          exact kept_launch_failed hs hsession hpc
      | notAdded =>
          cases hstep
          exact kept_launch_notAdded hs hsession hpc
      | added =>
          have hkept := kept_launch_added hs hsession hpc
          simp only [created, List.append_nil] at hkept
          cases hstep
          exact hkept

def WholeSends (s : State) : Input → Prop
  | .send _ out => sendMessage out ≤ 0
  | .handler h io => ∀ result, s.handlers[h]? = some (.took result) → result.operation = .connect →
      result.state = .finished → sendMessage io.out ≤ 0
  | _ => True

theorem kept_step (hs : s.Sound) {input : Input} (hwhole : s.WholeSends input)
    (hstep : s.step input = some s') : Kept s s' := by
  cases input with
  | request target => exact kept_request hs hstep
  | launch σ outcome => exact kept_launch hs hstep
  | send σ out => exact kept_send hs hwhole hstep
  | unlock σ => exact kept_unlock hs hstep
  | connectDone e error => exact kept_connectDone hs hstep
  | readDone e error => exact kept_readDone hs hstep
  | readReady e => exact kept_readReady hs hstep
  | createMessage e created errno => exact kept_createMessage hs hstep
  | append e timeout => exact kept_append hs hstep
  | deliver => exact kept_deliver hs hstep
  | take h => exact kept_take hs hstep
  | handler h io => exact kept_handlerStep hs hwhole hstep

theorem count_initialState (n e : Nat) (k : Kind) : (initialState n).count e k = 0 := by
  simp [count, initialState, blankEntry, nodeCount, HandlerPc.part]

theorem standing_initialState (n e : Nat) : (initialState n).standing e = blankStanding := by
  refine Standing.ext rfl ?_ ?_ rfl rfl
  · funext k
    exact count_initialState n e k
  · simp [standing, initialState, blankStanding]

theorem ok_blankStanding : blankStanding.Ok := by
  constructor <;> simp [blankStanding, blankEntry]

theorem sound_initialState (n : Nat) : (initialState n).Sound := by
  refine ⟨?_, ?_, ?_, ?_, ?_, ?_, ?_⟩
  · intro e
    rw [standing_initialState]
    exact ok_blankStanding
  · intro e _
    exact standing_initialState n e
  · intro τ e hmem
    cases hmem
  · intro τ
    exact List.nodup_nil
  · rintro result (hmem | hmem | hmem)
    · cases hmem
    · cases hmem
    · simp [initialState] at hmem
  · intro session hmem
    cases hmem
  · intro e σ hmem
    simp [initialState] at hmem

theorem ledger_ok_initialState (n : Nat) : (initialState n).ledger.Ok := by
  have hdebts : ∀ e, (initialState n).ledger.debts e = none := by
    intro e
    have hdebt := congrArg Standing.debt (standing_initialState n e)
    exact hdebt
  have hvoices : ∀ voice ∈ (initialState n).ledger.voices, voice = none := by
    intro voice hmem
    simp [ledger, initialState, HandlerPc.voice] at hmem
    exact hmem.2
  exact Ledger.ok_of_empty hdebts rfl hvoices rfl

theorem sound_of_reached {n : Nat} (hreached : Reached WholeSends n s) : s.Sound ∧ s.ledger.Ok := by
  induction hreached with
  | init => exact ⟨sound_initialState n, ledger_ok_initialState n⟩
  | step input hprev hallowed hstep ih =>
      obtain ⟨hsound, hledger⟩ := kept_step ih.1 hallowed hstep
      exact ⟨hsound, ih.2.step hledger⟩

end WorkflowModel.Kernel.Communicator.State
