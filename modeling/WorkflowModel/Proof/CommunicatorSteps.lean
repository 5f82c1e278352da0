import WorkflowModel.Proof.CommunicatorParts

/-!
# Every step keeps the standing of the entries

A step is about one entry. The others keep their standing, and the one that the step is about changes it in
one of the ways that were proved before. With it the ledger makes a step of its own, so that what holds for
every ledger holds for every run.
-/

namespace WorkflowModel.Kernel.Communicator

def Result.Ok (result : Result) : Prop :=
  result.state ≠ .modified ∧ (result.operation = .connect → result.state ≠ .success)

def blankStanding : Standing :=
  { entry := blankEntry, count := fun _ => 0, listed := false, adds := 0, frees := [] }

namespace State

variable {s s' : State}

structure Sound (s : State) : Prop where
  ok : ∀ e, (s.standing e).Ok
  fresh : ∀ e, s.launched ≤ e → s.standing e = blankStanding
  idle : ∀ τ e, e ∈ s.idleList τ → (s.entries e).target = τ
  nodup : ∀ τ, (s.idleList τ).Nodup
  results : ∀ result, result ∈ s.pipe ∨ result ∈ s.queue ∨ .took result ∈ s.handlers → result.Ok
  sending : ∀ session ∈ s.sessions, ∀ e, session.pc = .sending e → session.target = (s.entries e).target
  succeeding : ∀ e σ, .succeeding e σ ∈ s.handlers → (s.entries e).session = σ

theorem count_pos_of_node {e : Nat} {node : Registration} (h : (s.entries e).node = some node) :
    0 < s.count e node.kind := by
  have hnode : nodeCount (s.entries e).node node.kind = 1 := by
    simp [nodeCount, h]
  simp only [count]
  omega

theorem count_pos_of_mem {result : Result} (hmem : result ∈ s.pipe ∨ result ∈ s.queue) :
    0 < s.count result.entry result.kind := by
  rcases hmem with hmem | hmem
  · have hpos : 0 < s.pipe.countP fun result' =>
        (result'.entry, result'.kind) = (result.entry, result.kind) :=
      List.countP_pos_iff.2 ⟨result, hmem, by simp⟩
    simp only [count]
    omega
  · have hpos : 0 < s.queue.countP fun result' =>
        (result'.entry, result'.kind) = (result.entry, result.kind) :=
      List.countP_pos_iff.2 ⟨result, hmem, by simp⟩
    simp only [count]
    omega

theorem count_pos_of_handler {h e : Nat} {pc : HandlerPc} {k : Kind} (hpc : s.handlers[h]? = some pc)
    (hpart : pc.part = some (e, k)) : 0 < s.count e k := by
  have hpos : 0 < s.handlers.countP fun pc => pc.part = some (e, k) :=
    List.countP_pos_iff.2 ⟨pc, List.mem_of_getElem? hpc, by simp [hpart]⟩
  simp only [count]
  omega

theorem count_pos_of_succeeding {e σ : Nat} (hmem : .succeeding e σ ∈ s.handlers) : 0 < s.count e .success := by
  obtain ⟨h, hh⟩ := List.getElem?_of_mem hmem
  exact count_pos_of_handler hh rfl

theorem count_pos_of_session {σ e : Nat} {session : Session} {k : Kind} (hsession : s.sessions[σ]? = some session)
    (hpart : session.pc.part = some (e, k)) : 0 < s.count e k := by
  have hpos : 0 < s.sessions.countP fun session => session.pc.part = some (e, k) :=
    List.countP_pos_iff.2 ⟨session, List.mem_of_getElem? hsession, by simp [hpart]⟩
  simp only [count]
  omega

theorem Sound.lt_launched (hs : s.Sound) {e : Nat} {k : Kind} (hpos : 0 < s.count e k) : e < s.launched := by
  by_contra hle
  have hblank := congrArg Standing.count (hs.fresh e (by omega))
  have hzero : s.count e k = 0 := congrFun hblank k
  omega

theorem Sound.mem_idleList_iff (hs : s.Sound) (e τ : Nat) :
    e ∈ s.idleList τ ↔ (s.entries e).target = τ ∧ (s.standing e).listed = true := by
  constructor
  · intro hmem
    have htarget := hs.idle τ e hmem
    subst htarget
    exact ⟨rfl, by simpa [standing] using hmem⟩
  · rintro ⟨rfl, hlisted⟩
    simpa [standing] using hlisted

theorem standing_eq {e e' : Nat} {k k' : Option Kind} (hmoved : Moved s s' (k.map (e, ·)) (k'.map (e, ·)))
    (hne : e' ≠ e) (hentry : s'.entries e' = s.entries e')
    (hidle : e' ∈ s'.idleList (s.entries e').target ↔ e' ∈ s.idleList (s.entries e').target)
    {events : List Event} (hlog : s'.log = s.log ++ events)
    (hevents : ∀ event ∈ events, event.entry ≠ some e') : s'.standing e' = s.standing e' := by
  have hadds : events.countP (Event.isAddRead e') = 0 := by
    rw [List.countP_eq_zero]
    intro event hevent
    simp [Event.isAddRead_of_ne (hevents event hevent)]
  have hfrees : events.filterMap (Event.freedRef e') = [] := by
    rw [List.filterMap_eq_nil_iff]
    intro event hevent
    exact Event.freedRef_of_ne (hevents event hevent)
  simp only [standing, hentry, hmoved.count_eq hne, hidle, hlog, List.countP_append, hadds,
    List.filterMap_append, hfrees, List.append_nil, Nat.add_zero]

theorem Sound.of_frame (hs : s.Sound) {e : Nat} (hlt : e < s.launched)
    (hframe : ∀ e', e' ≠ e → s'.standing e' = s.standing e') (hlaunched : s'.launched = s.launched)
    (hok : (s'.standing e).Ok) :
    (∀ e', (s'.standing e').Ok) ∧ ∀ e', s'.launched ≤ e' → s'.standing e' = blankStanding := by
  constructor
  · intro e'
    by_cases he : e' = e
    · rw [he]
      exact hok
    · rw [hframe e' he]
      exact hs.ok e'
  · intro e' hle
    have he : e' ≠ e := by omega
    rw [hframe e' he]
    exact hs.fresh e' (by omega)

/-- A step is about one entry. The others keep all they have, and it may come into the idle list of its target or
leave it. -/
structure About (s s' : State) (e : Nat) (list : List Nat) (k k' : Option Kind) (events : List Event) : Prop where
  moved : Moved s s' (k.map (e, ·)) (k'.map (e, ·))
  entries : ∀ e', e' ≠ e → s'.entries e' = s.entries e'
  target : (s'.entries e).target = (s.entries e).target
  launched : s'.launched = s.launched
  idle : s'.idleList = Function.update s.idleList (s.entries e).target list
  members : ∀ e', e' ≠ e → (e' ∈ list ↔ e' ∈ s.idleList (s.entries e).target)
  nodup : list.Nodup
  log : s'.log = s.log ++ events
  calls : ∀ event ∈ events, ∀ e', e' ≠ e → event.entry ≠ some e'

section About

variable {e : Nat} {list : List Nat} {k k' : Option Kind} {events : List Event}

theorem Sound.about (hs : s.Sound) (hmoved : Moved s s' (k.map (e, ·)) (k'.map (e, ·)))
    (hentries : ∀ e', e' ≠ e → s'.entries e' = s.entries e')
    (htarget : (s'.entries e).target = (s.entries e).target) (hlaunched : s'.launched = s.launched)
    (hidle : s'.idleList = s.idleList) (hlog : s'.log = s.log) :
    About s s' e (s.idleList (s.entries e).target) k k' [] := by
  refine ⟨hmoved, hentries, htarget, hlaunched, ?_, fun _ _ => Iff.rfl, hs.nodup _, ?_, by simp⟩
  · rw [hidle, Function.update_eq_self]
  · rw [hlog, List.append_nil]

theorem About.mem_idleList (ha : About s s' e list k k' events) {e' : Nat} (hne : e' ≠ e) (τ : Nat) :
    e' ∈ s'.idleList τ ↔ e' ∈ s.idleList τ := by
  rw [ha.idle]
  by_cases hτ : τ = (s.entries e).target
  · rw [hτ, Function.update_self]
    exact ha.members e' hne
  · rw [Function.update_of_ne hτ]

theorem About.standing_of_ne (ha : About s s' e list k k' events) {e' : Nat} (hne : e' ≠ e) :
    s'.standing e' = s.standing e' :=
  standing_eq ha.moved hne (ha.entries e' hne) (ha.mem_idleList hne _) ha.log
    fun event hevent => ha.calls event hevent e' hne

theorem About.target_eq (ha : About s s' e list k k' events) (e' : Nat) :
    (s'.entries e').target = (s.entries e').target := by
  by_cases he : e' = e
  · rw [he, ha.target]
  · rw [ha.entries e' he]

theorem About.session_eq (ha : About s s' e list k k' events)
    (hsession : (s'.entries e).session = (s.entries e).session) (e' : Nat) :
    (s'.entries e').session = (s.entries e').session := by
  by_cases he : e' = e
  · rw [he, hsession]
  · rw [ha.entries e' he]

theorem About.debts (ha : About s s' e list k k' events) :
    s'.ledger.debts = Function.update s.ledger.debts e (s'.standing e).debt := by
  funext e'
  by_cases he : e' = e
  · rw [he, Function.update_self]
    rfl
  · rw [Function.update_of_ne he]
    exact congrArg Standing.debt (ha.standing_of_ne he)

theorem About.debts_of_eq (ha : About s s' e list k k' events)
    (hdebt : (s'.standing e).debt = (s.standing e).debt) : s'.ledger.debts = s.ledger.debts := by
  rw [ha.debts, hdebt]
  exact Function.update_eq_self e s.ledger.debts

theorem About.targets (ha : About s s' e list k k' events) : s'.ledger.targets = s.ledger.targets :=
  funext ha.target_eq

theorem About.sound (ha : About s s' e list k k' events) (hs : s.Sound) (hlt : e < s.launched)
    (hok : (s'.standing e).Ok)
    (hresults : ∀ result, result ∈ s'.pipe ∨ result ∈ s'.queue ∨ .took result ∈ s'.handlers → result.Ok)
    (hsending : ∀ session ∈ s'.sessions, ∀ e', session.pc = .sending e' → session.target = (s.entries e').target)
    (hsucceeding : ∀ e' σ, .succeeding e' σ ∈ s'.handlers → (s'.entries e').session = σ) : s'.Sound := by
  obtain ⟨hall, hfresh⟩ := hs.of_frame hlt (fun _ hne => ha.standing_of_ne hne) ha.launched hok
  refine ⟨hall, hfresh, ?_, ?_, hresults, ?_, hsucceeding⟩
  · intro τ e' hmem
    rw [ha.target_eq]
    by_cases he : e' = e
    · subst he
      by_contra hne
      rw [ha.idle, Function.update_of_ne (Ne.symm hne)] at hmem
      exact hne (hs.idle τ e' hmem)
    · exact hs.idle τ e' ((ha.mem_idleList he τ).1 hmem)
  · intro τ
    rw [ha.idle]
    by_cases hτ : τ = (s.entries e).target
    · rw [hτ, Function.update_self]
      exact ha.nodup
    · rw [Function.update_of_ne hτ]
      exact hs.nodup τ
  · intro session hmem e' hpc
    rw [ha.target_eq]
    exact hsending session hmem e' hpc

end About

/-- A handler thread changes one entry and the idle list of its target, and makes calls. -/
def turn (s : State) (h e : Nat) (entry : ConnEntry) (list : List Nat) (pc : HandlerPc)
    (events : List Event) : State :=
  { s with
    entries := Function.update s.entries e entry
    idleList := Function.update s.idleList (s.entries e).target list
    handlers := s.handlers.set h pc
    log := s.log ++ events }

section Turn

variable {h e : Nat} {entry : ConnEntry} {list : List Nat} {pc pc' : HandlerPc} {events : List Event}

theorem setEntry_setHandler (s : State) (h e : Nat) (entry : ConnEntry) (pc : HandlerPc) :
    (s.setEntry e entry).setHandler h pc = s.turn h e entry (s.idleList (s.entries e).target) pc [] := by
  simp [turn, setEntry, setHandler]

theorem setEntry_setIdleList_setHandler (s : State) (h e : Nat) (entry : ConnEntry) (list : List Nat)
    (pc : HandlerPc) :
    ((s.setEntry e entry).setIdleList (s.entries e).target list).setHandler h pc
      = s.turn h e entry list pc [] := by
  simp [turn, setEntry, setIdleList, setHandler]

theorem setHandler_eq_turn (s : State) (h e : Nat) (pc : HandlerPc) :
    s.setHandler h pc = s.turn h e (s.entries e) (s.idleList (s.entries e).target) pc [] := by
  simp [turn, setHandler]

theorem record_turn (event : Event) :
    (s.turn h e entry list pc []).record event = s.turn h e entry list pc [event] := by
  simp [turn, record]

theorem moved_turn (hpc : s.handlers[h]? = some pc) (hnode : entry.node = (s.entries e).node) :
    Moved s (s.turn h e entry list pc' events) pc.part pc'.part := by
  have hentry := moved_setEntry s e entry
  rw [hnode] at hentry
  have hhandler := moved_setHandler (s := s.setEntry e entry) hpc pc'
  exact (hentry.same _).trans hhandler

@[simp]
theorem turn_entries_self : (s.turn h e entry list pc events).entries e = entry := by
  simp [turn]

theorem turn_entries_of_ne {e' : Nat} (hne : e' ≠ e) :
    (s.turn h e entry list pc events).entries e' = s.entries e' := by
  simp [turn, Function.update_of_ne hne]

/-- A turn of the thread in which one part of the entry changes its kind. -/
structure Turned (s : State) (h e : Nat) (entry : ConnEntry) (list : List Nat) (pc pc' : HandlerPc)
    (events : List Event) (k : Kind) (k' : Option Kind) : Prop where
  running : s.handlers[h]? = some pc
  part : pc.part = some (e, k)
  moved : Moved s (s.turn h e entry list pc' events) ((some k).map (e, ·)) (k'.map (e, ·))
  target : entry.target = (s.entries e).target
  session : entry.session = (s.entries e).session
  nodup : list.Nodup
  members : ∀ e', e' ≠ e → (e' ∈ list ↔ e' ∈ s.idleList (s.entries e).target)
  about : ∀ event ∈ events, ∀ e', e' ≠ e → event.entry ≠ some e'
  took : ∀ result, pc' ≠ .took result
  succeeding : ∀ e' σ, pc' = .succeeding e' σ → (s.entries e').session = σ

variable {k : Kind} {k' : Option Kind}

theorem Turned.toAbout (ht : Turned s h e entry list pc pc' events k k') :
    About s (s.turn h e entry list pc' events) e list (some k) k' events := by
  refine ⟨ht.moved, fun _ hne => turn_entries_of_ne hne, ?_, rfl, rfl, ht.members, ht.nodup, rfl, ht.about⟩
  rw [turn_entries_self, ht.target]

theorem Turned.shift (ht : Turned s h e entry list pc pc' events k k') :
    Shift (s.standing e).count ((s.turn h e entry list pc' events).standing e).count (some k) k' :=
  ht.moved.shift

theorem Turned.listed (ht : Turned s h e entry list pc pc' events k k') :
    ((s.turn h e entry list pc' events).standing e).listed = decide (e ∈ list) := by
  simp [standing, turn, ht.target]

theorem turn_adds : ((s.turn h e entry list pc events).standing e).adds
    = (s.standing e).adds + events.countP (Event.isAddRead e) := by
  simp [standing, turn]

theorem turn_frees : ((s.turn h e entry list pc events).standing e).frees
    = (s.standing e).frees ++ events.filterMap (Event.freedRef e) := by
  simp [standing, turn]

theorem Turned.sound (ht : Turned s h e entry list pc pc' events k k') (hs : s.Sound)
    (hok : ((s.turn h e entry list pc' events).standing e).Ok) :
    (s.turn h e entry list pc' events).Sound := by
  have hlt := hs.lt_launched (count_pos_of_handler ht.running ht.part)
  have hsession : ((s.turn h e entry list pc' events).entries e).session = (s.entries e).session := by
    rw [turn_entries_self, ht.session]
  refine ht.toAbout.sound hs hlt hok ?_ hs.sending ?_
  · rintro result (hmem | hmem | hmem)
    · exact hs.results result (.inl hmem)
    · exact hs.results result (.inr (.inl hmem))
    · rcases List.mem_or_eq_of_mem_set hmem with hmem | heq
      · exact hs.results result (.inr (.inr hmem))
      · exact absurd heq.symm (ht.took result)
  · intro e' σ hmem
    rw [ht.toAbout.session_eq hsession]
    rcases List.mem_or_eq_of_mem_set hmem with hmem | heq
    · exact hs.succeeding e' σ hmem
    · exact ht.succeeding e' σ heq.symm

theorem Turned.ledger (ht : Turned s h e entry list pc pc' events k k') :
    (s.turn h e entry list pc' events).ledger = { s.ledger with
      debts := Function.update s.ledger.debts e ((s.turn h e entry list pc' events).standing e).debt
      voices := s.ledger.voices.set h pc'.voice
      log := s.ledger.log ++ events } := by
  have hvoices : (s.turn h e entry list pc' events).ledger.voices = s.ledger.voices.set h pc'.voice :=
    List.map_set
  exact Ledger.ext ht.toAbout.debts ht.toAbout.targets rfl hvoices rfl

theorem Turned.voice (ht : Turned s h e entry list pc pc' events k k') :
    s.ledger.voices[h]? = some pc.voice := by
  simp [State.ledger, ht.running]

theorem Turned.plain (hs : s.Sound) (hpc : s.handlers[h]? = some pc) (hpart : pc.part = some (e, k))
    (hpart' : pc'.part = k'.map (e, ·)) (hnode : entry.node = (s.entries e).node)
    (htarget : entry.target = (s.entries e).target) (hsession : entry.session = (s.entries e).session)
    (hevents : ∀ event ∈ events, ∀ e', e' ≠ e → event.entry ≠ some e')
    (htook : ∀ result, pc' ≠ .took result)
    (hsucceeding : ∀ e' σ, pc' = .succeeding e' σ → (s.entries e').session = σ) :
    Turned s h e entry (s.idleList (s.entries e).target) pc pc' events k k' := by
  refine ⟨hpc, hpart, ?_, htarget, hsession, hs.nodup _, fun _ _ => Iff.rfl, hevents, htook, hsucceeding⟩
  have hmoved : Moved s (s.turn h e entry (s.idleList (s.entries e).target) pc' events) pc.part pc'.part :=
    moved_turn hpc hnode
  rw [hpart, hpart'] at hmoved
  exact hmoved

def Kept (s s' : State) : Prop := s'.Sound ∧ Ledger.Step s.ledger s'.ledger

theorem Kept.of_ledger_eq (hs : s'.Sound) (hledger : s'.ledger = s.ledger) : Kept s s' := by
  refine ⟨hs, ?_⟩
  rw [hledger]
  exact .rest _

theorem set_eq_self {α : Type*} {l : List α} {i : Nat} {a : α} (h : l[i]? = some a) : l.set i a = l := by
  obtain ⟨hi, rfl⟩ := List.getElem?_eq_some_iff.1 h
  exact List.set_getElem_self hi

theorem Turned.quiet (ht : Turned s h e entry list pc pc' [] k k') (hs : s.Sound)
    (hok : ((s.turn h e entry list pc' []).standing e).Ok
      ∧ ((s.turn h e entry list pc' []).standing e).debt = (s.standing e).debt)
    (hvoice : pc'.voice = pc.voice) : Kept s (s.turn h e entry list pc' []) := by
  refine Kept.of_ledger_eq (ht.sound hs hok.1) ?_
  rw [ht.ledger, hok.2, hvoice, set_eq_self ht.voice, List.append_nil]
  have hself : Function.update s.ledger.debts e (s.standing e).debt = s.ledger.debts :=
    Function.update_eq_self e s.ledger.debts
  rw [hself]

theorem Turned.noted {event : Event} (ht : Turned s h e entry list pc pc' [event] k k') (hs : s.Sound)
    (hok : ((s.turn h e entry list pc' [event]).standing e).Ok
      ∧ ((s.turn h e entry list pc' [event]).standing e).debt = (s.standing e).debt)
    (hvoice : pc.voice = none) (hvoice' : pc'.voice = none) (hevent : event.isNote = true)
    (hhandler : event.handler = some h) : Kept s (s.turn h e entry list pc' [event]) := by
  refine ⟨ht.sound hs hok.1, ?_⟩
  have hnone := ht.voice
  rw [hvoice] at hnone
  rw [ht.ledger, hok.2, hvoice', set_eq_self hnone]
  have hself : Function.update s.ledger.debts e (s.standing e).debt = s.ledger.debts :=
    Function.update_eq_self e s.ledger.debts
  rw [hself]
  exact .note _ h event hevent hhandler hnone

theorem Turned.held {σ : Nat} (ht : Turned s h e entry list pc pc' [] k k') (hs : s.Sound)
    (hok : ((s.turn h e entry list pc' []).standing e).Ok ∧ (s.standing e).debt = some σ
      ∧ ((s.turn h e entry list pc' []).standing e).debt = none)
    (hvoice : pc.voice = none)
    (hvoice' : pc'.voice = some { entry := e, session := σ, announced := false }) :
    Kept s (s.turn h e entry list pc' []) := by
  refine ⟨ht.sound hs hok.1, ?_⟩
  have hnone := ht.voice
  rw [hvoice] at hnone
  rw [ht.ledger, hok.2.2, hvoice', List.append_nil]
  exact .hold _ h e σ hok.2.1 hnone

theorem Turned.standing_entry (_ : Turned s h e entry list pc pc' events k k') :
    ((s.turn h e entry list pc' events).standing e).entry = entry := by
  simp [standing]

theorem Turned.sameLog (_ : Turned s h e entry list pc pc' [] k k') :
    Standing.SameLog (s.standing e) ((s.turn h e entry list pc' []).standing e) := by
  constructor
  · rw [turn_adds]
    rfl
  · rw [turn_frees]
    simp

end Turn

section Handlers

variable {h e : Nat} {io : HandlerIo} {result : Result}

theorem Result.kind_of_connect (hresult : result.Ok) (hoperation : result.operation = .connect) :
    result.kind = .opening := by
  simp [Result.kind, hoperation, hresult.2 hoperation]

/-- A new connection has failed, and the thread will release the entry at once. -/
theorem kept_failed (hs : s.Sound) {k : Kind} {pc : HandlerPc} (hpc : s.handlers[h]? = some pc)
    (hpart : pc.part = some (e, k)) (hk : k = .opening ∨ k = .adding) (hvoice : pc.voice = none)
    (state : CsState) (error : Int) :
    Kept s (s.setHandler h
      (.releasing e { session := (s.entries e).session, state := state, error := error } true)) := by
  rw [setHandler_eq_turn s h e]
  have ht : Turned s h e (s.entries e) (s.idleList (s.entries e).target) pc
      (.releasing e { session := (s.entries e).session, state := state, error := error } true) []
      k (some .direct) :=
    Turned.plain hs hpc hpart rfl rfl rfl rfl (by simp) (by simp) (by simp)
  refine ht.held hs ?_ hvoice rfl
  rcases hk with rfl | rfl
  · exact (hs.ok e).failOpening ht.shift ht.standing_entry ht.listed ht.sameLog
  · exact (hs.ok e).failAdding ht.shift ht.standing_entry ht.listed ht.sameLog

theorem kept_handleConnect (hs : s.Sound) (hpc : s.handlers[h]? = some (.took result))
    (hoperation : result.operation = .connect)
    (hwhole : result.state = .finished → sendMessage io.out ≤ 0) : Kept s (s.handleConnect h io result) := by
  have hresult := hs.results result (.inr (.inr (List.mem_of_getElem? hpc)))
  have hpart : (HandlerPc.took result).part = some (result.entry, .opening) := by
    rw [HandlerPc.part, Result.kind_of_connect hresult hoperation]
  have hfailed := kept_failed hs hpc hpart (.inl rfl) rfl
  have hmodified := hresult.1
  have hsuccess := hresult.2 hoperation
  unfold handleConnect
  cases hstate : result.state with
  | success => exact absurd hstate hsuccess
  | modified => exact absurd hstate hmodified
  | error => exact hfailed .error result.error
  | deleted => exact hfailed .stopped result.error
  | stopped => exact hfailed .stopped result.error
  | finished =>
      have hsend := hwhole hstate
      dsimp only
      by_cases hzero : sendMessage io.out = 0
      · rw [if_pos hzero, setEntry_setHandler]
        have ht : Turned s h result.entry { s.entries result.entry with state := .receiving }
            (s.idleList (s.entries result.entry).target) (.took result) (.adding result.entry) []
            .opening (some .adding) :=
          Turned.plain hs hpc hpart rfl rfl rfl rfl (by simp) (by simp) (by simp)
        exact ht.quiet hs ((hs.ok _).sent ht.shift ht.standing_entry ht.listed ht.sameLog) rfl
      · rw [if_neg hzero, if_neg (by omega)]
        exact hfailed .error io.out.errno

theorem kept_handleAdd (hs : s.Sound) (hpc : s.handlers[h]? = some (.adding e)) :
    Kept s (s.handleAdd h io e) := by
  unfold handleAdd
  by_cases hadded : io.added = true
  · rw [if_pos hadded]
    have hpos : 0 < s.count e .adding := count_pos_of_handler hpc rfl
    have hnode : (s.entries e).node = none := by
      -- a second part of the connection would be too much
      cases hnode : (s.entries e).node with
      | none => rfl
      | some node =>
          have hpos' := count_pos_of_node hnode
          have hsingle := (hs.ok e).single
          simp only [standing] at hsingle
          unfold Registration.kind at hpos'
          split at hpos' <;> omega
    have hentry := moved_setEntry s e
      { s.entries e with node := some { operation := .read, phase := .none } }
    rw [hnode] at hentry
    have hhandler := moved_setHandler (s := s.setEntry e
      { s.entries e with node := some { operation := .read, phase := .none } }) hpc .waiting
    have ht : Turned s h e { s.entries e with node := some { operation := .read, phase := .none } }
        (s.idleList (s.entries e).target) (.adding e) .waiting [.addRead h e] .adding (some .reading) := by
      refine ⟨hpc, rfl, ?_, rfl, rfl, hs.nodup _, fun _ _ => Iff.rfl, ?_, by simp, by simp⟩
      · intro e' k
        have hfirst := hentry e' k
        have hsecond := hhandler e' k
        have hcount : (s.turn h e { s.entries e with node := some { operation := .read, phase := .none } }
            (s.idleList (s.entries e).target) .waiting [.addRead h e]).count e' k
            = ((s.setEntry e { s.entries e with
              node := some { operation := .read, phase := .none } }).setHandler h .waiting).count e' k := rfl
        simp [HandlerPc.part, Registration.kind] at hfirst hsecond hcount ⊢
        omega
      · intro event hevent e' hne
        simp only [List.mem_singleton] at hevent
        subst hevent
        simpa [Event.entry] using Ne.symm hne
    rw [setEntry_setHandler, record_turn]
    refine ht.noted hs ((hs.ok e).add ht.shift ht.standing_entry ht.listed ⟨?_, ?_⟩) rfl rfl rfl rfl
    · rw [turn_adds]
      simp [Event.isAddRead]
    · rw [turn_frees]
      simp [Event.freedRef]
  · rw [if_neg hadded]
    exact kept_failed hs hpc rfl (.inr rfl) rfl .error io.errno

theorem kept_handleSuccess (hs : s.Sound) {σ : Nat} (hpc : s.handlers[h]? = some (.succeeding e σ)) :
    Kept s (s.handleSuccess h e σ) := by
  obtain rfl := hs.succeeding e σ (List.mem_of_getElem? hpc)
  unfold handleSuccess
  dsimp only
  by_cases hstate : (s.entries e).state = .success
  · rw [if_pos hstate]
    by_cases htimeout : (s.sessions[(s.entries e).session]?.map fun session => session.timeout) ≠ some 0
    · rw [if_pos htimeout]
      have hnot : e ∉ s.idleList (s.entries e).target := by
        intro hmem
        have hlisted := ((hs.mem_idleList_iff e _).1 hmem).2
        have hidle := ((hs.ok e).listed_iff.1 hlisted).1
        simp [standing, hstate] at hidle
      have ht : Turned s h e { s.entries e with ref := (s.entries e).ref + 1, state := .idle }
          (e :: s.idleList (s.entries e).target) (.succeeding e (s.entries e).session)
          (.releasing e { session := (s.entries e).session, state := .success, error := 0 } false) []
          .success (some .dropping) := by
        refine ⟨hpc, rfl, moved_turn hpc rfl, rfl, rfl, List.nodup_cons.2 ⟨hnot, hs.nodup _⟩, ?_, by simp,
          by simp, by simp⟩
        intro e' hne
        simp [hne]
      have hlisted := ht.listed
      simp only [List.mem_cons_self, decide_true] at hlisted
      rw [setEntry_setIdleList_setHandler]
      exact ht.held hs ((hs.ok e).succeedIdle ht.shift ht.standing_entry hlisted ht.sameLog hstate) rfl rfl
    · rw [if_neg htimeout, setEntry_setHandler]
      have ht : Turned s h e { s.entries e with ref := (s.entries e).ref + 1, state := .closing }
          (s.idleList (s.entries e).target) (.succeeding e (s.entries e).session)
          (.releasing e { session := (s.entries e).session, state := .success, error := 0 } false) []
          .success (some .dropping) :=
        Turned.plain hs hpc rfl rfl rfl rfl rfl (by simp) (by simp) (by simp)
      exact ht.held hs ((hs.ok e).succeedClosing ht.shift ht.standing_entry ht.listed ht.sameLog hstate) rfl rfl
  · rw [if_neg hstate, setHandler_eq_turn s h e]
    have ht : Turned s h e (s.entries e)
        (s.idleList (s.entries e).target) (.succeeding e (s.entries e).session)
        (.releasing e { session := (s.entries e).session, state := .success, error := 0 } false) []
        .success (some .dropping) :=
      Turned.plain hs hpc rfl rfl rfl rfl rfl (by simp) (by simp) (by simp)
    exact ht.held hs ((hs.ok e).succeedClosed ht.shift ht.standing_entry ht.listed ht.sameLog hstate) rfl rfl

theorem setEntry_setEntry (s : State) (e : Nat) (entry entry' : ConnEntry) :
    (s.setEntry e entry).setEntry e entry' = s.setEntry e entry' := by
  simp [setEntry]

theorem kept_handleClose (hs : s.Sound) (hpc : s.handlers[h]? = some (.took result))
    (hoperation : result.operation ≠ .connect) (hsuccess : result.state ≠ .success)
    (hstep : s.handleClose h result = some s') : Kept s s' := by
  have hpart : (HandlerPc.took result).part = some (result.entry, .reading) := by
    simp [HandlerPc.part, Result.kind, hoperation, hsuccess]
  unfold handleClose at hstep
  dsimp only at hstep
  by_cases hmutex : (s.entries result.entry).mutex = true
  · rw [if_pos hmutex] at hstep
    cases hstep
  rw [if_neg hmutex] at hstep
  have hfree : (s.standing result.entry).entry.mutex = false := by
    simpa [standing] using hmutex
  have hclose : ∀ reply, Turned s h result.entry { s.entries result.entry with mutex := true }
      (s.idleList (s.entries result.entry).target) (.took result) (.unlocking result.entry true reply) []
      .reading (some .parting) :=
    fun reply => Turned.plain hs hpc hpart rfl rfl rfl rfl (by simp) (by simp) (by simp)
  cases hstep
  split
  case h_1 hstate =>
      have ht : Turned s h result.entry { s.entries result.entry with mutex := true }
          ((s.idleList (s.entries result.entry).target).erase result.entry) (.took result)
          (.unlocking result.entry true none) [] .reading (some .parting) := by
        have hmoved : Moved s (s.turn h result.entry { s.entries result.entry with mutex := true }
            ((s.idleList (s.entries result.entry).target).erase result.entry)
            (.unlocking result.entry true none) []) (HandlerPc.took result).part
            (HandlerPc.unlocking result.entry true none).part := moved_turn hpc rfl
        rw [hpart] at hmoved
        exact ⟨hpc, hpart, hmoved, rfl, rfl, (hs.nodup _).erase _,
          fun e' hne => List.mem_erase_of_ne hne, by simp, by simp, by simp⟩
      have hlisted := ht.listed
      rw [decide_eq_false (hs.nodup _).not_mem_erase] at hlisted
      have hkept := ht.quiet hs
        ((hs.ok _).closeIdle ht.shift ht.standing_entry hlisted ht.sameLog hstate hfree) rfl
      rw [← setEntry_setIdleList_setHandler] at hkept
      exact hkept
  case h_2 hstate =>
      have ht := hclose (some { session := (s.entries result.entry).session, state := .error,
                                error := (s.entries result.entry).error })
      rw [setEntry_setHandler]
      exact ht.held hs ((hs.ok _).closeWaiting ht.shift ht.standing_entry ht.listed ht.sameLog
        (.inr hstate) hfree) rfl rfl
  case h_3 hstate =>
      have ht := hclose (some { session := (s.entries result.entry).session,
                                state := (closeReply result).1, error := (closeReply result).2 })
      rw [setEntry_setHandler]
      exact ht.held hs ((hs.ok _).closeWaiting ht.shift ht.standing_entry ht.listed ht.sameLog
        (.inl hstate) hfree) rfl rfl
  case h_4 hstate =>
      rw [setEntry_setEntry, setEntry_setHandler]
      have ht : Turned s h result.entry { s.entries result.entry with mutex := true, state := .closing }
          (s.idleList (s.entries result.entry).target) (.took result) (.unlocking result.entry false none) []
          .reading (some .dead) :=
        Turned.plain hs hpc hpart rfl rfl rfl rfl (by simp) (by simp) (by simp)
      exact ht.quiet hs ((hs.ok _).closeSuccess ht.shift ht.standing_entry ht.listed ht.sameLog hstate
        hfree) rfl
  case h_5 hidle herror hreceiving hsuccess =>
      rw [setEntry_setHandler]
      have ht := hclose none
      exact ht.quiet hs ((hs.ok _).closeOther ht.shift ht.standing_entry ht.listed ht.sameLog
        hidle hreceiving herror hsuccess hfree) rfl

theorem kept_succeeding (hs : s.Sound) (hpc : s.handlers[h]? = some (.took result))
    (hsuccess : result.state = .success) :
    Kept s (s.setHandler h (.succeeding result.entry (s.entries result.entry).session)) := by
  have hpart : (HandlerPc.took result).part = some (result.entry, .success) := by
    simp [HandlerPc.part, Result.kind, hsuccess]
  rw [setHandler_eq_turn s h result.entry]
  have ht : Turned s h result.entry (s.entries result.entry) (s.idleList (s.entries result.entry).target)
      (.took result) (.succeeding result.entry (s.entries result.entry).session) [] .success
      (some .success) := by
    refine Turned.plain hs hpc hpart rfl rfl rfl rfl (by simp) (by simp) ?_
    rintro e' σ ⟨⟩
    rfl
  refine ht.quiet hs ?_ rfl
  have hsame : (s.turn h result.entry (s.entries result.entry) (s.idleList (s.entries result.entry).target)
      (.succeeding result.entry (s.entries result.entry).session) []).standing result.entry
      = s.standing result.entry := by
    have hcount := ht.shift.of_eq
    have hentry := ht.standing_entry
    have hlisted := ht.listed
    obtain ⟨hadds, hfrees⟩ := ht.sameLog
    exact Standing.ext hentry hcount hlisted hadds hfrees
  rw [hsame]
  exact ⟨hs.ok _, rfl⟩

theorem kept_unlocking (hs : s.Sound) {alive : Bool} {reply : Option Reply}
    (hpc : s.handlers[h]? = some (.unlocking e alive reply)) (hstep : s.handlerStep h io = some s') :
    Kept s s' := by
  simp only [handlerStep, hpc, Option.some.injEq] at hstep
  rw [← hstep, setEntry_setHandler]
  cases alive with
  | false =>
      have ht : Turned s h e { s.entries e with mutex := false } (s.idleList (s.entries e).target)
          (.unlocking e false reply) .waiting [] .dead none :=
        Turned.plain hs hpc rfl rfl rfl rfl rfl (by simp) (by simp) (by simp)
      refine ht.quiet hs ((hs.ok e).forget ht.shift ht.standing_entry ht.listed ht.sameLog) ?_
      cases reply <;> rfl
  | true =>
      cases reply with
      | none =>
          have ht : Turned s h e { s.entries e with mutex := false } (s.idleList (s.entries e).target)
              (.unlocking e true none) (.dropping e) [] .parting (some .dropping) :=
            Turned.plain hs hpc rfl rfl rfl rfl rfl (by simp) (by simp) (by simp)
          exact ht.quiet hs ((hs.ok e).part ht.shift ht.standing_entry ht.listed ht.sameLog) rfl
      | some reply =>
          have ht : Turned s h e { s.entries e with mutex := false } (s.idleList (s.entries e).target)
              (.unlocking e true (some reply)) (.releasing e reply false) [] .parting (some .dropping) :=
            Turned.plain hs hpc rfl rfl rfl rfl rfl (by simp) (by simp) (by simp)
          exact ht.quiet hs ((hs.ok e).part ht.shift ht.standing_entry ht.listed ht.sameLog) rfl

/-- A call that is about a session. -/
theorem kept_call (hs : s.Sound) {pc pc' : HandlerPc} {event : Event} {k : Kind}
    (hpc : s.handlers[h]? = some pc) (hpart : pc.part = some (e, k)) (hpart' : pc'.part = some (e, k))
    (hevent : event.entry = none) (htook : ∀ result, pc' ≠ .took result)
    (hsucceeding : ∀ e' σ, pc' ≠ .succeeding e' σ)
    (hstep : Ledger.Step s.ledger { s.ledger with
      voices := s.ledger.voices.set h pc'.voice
      log := s.ledger.log ++ [event] }) : Kept s ((s.setHandler h pc').record event) := by
  rw [setHandler_eq_turn s h e, record_turn]
  have ht : Turned s h e (s.entries e) (s.idleList (s.entries e).target) pc pc' [event] k (some k) := by
    refine Turned.plain hs hpc hpart hpart' rfl rfl rfl ?_ htook fun e' σ heq => absurd heq (hsucceeding e' σ)
    intro event' hmem e' _
    rw [List.mem_singleton.1 hmem, hevent]
    simp
  have hsame : (s.turn h e (s.entries e) (s.idleList (s.entries e).target) pc' [event]).standing e
      = s.standing e := by
    refine Standing.ext ht.standing_entry ht.shift.of_eq ht.listed ?_ ?_
    · rw [turn_adds, List.countP_singleton, Event.isAddRead_of_ne (by rw [hevent]; simp)]
      rfl
    · rw [turn_frees, List.filterMap_cons, Event.freedRef_of_ne (by rw [hevent]; simp)]
      simp
  refine ⟨ht.sound hs ?_, ?_⟩
  · rw [hsame]
    exact hs.ok e
  · rw [ht.ledger, hsame]
    have hself : Function.update s.ledger.debts e (s.standing e).debt = s.ledger.debts :=
      Function.update_eq_self e s.ledger.debts
    rw [hself]
    exact hstep

theorem kept_dropping (hs : s.Sound) (hpc : s.handlers[h]? = some (.dropping e)) :
    Kept s ((s.setEntry e { s.entries e with ref := (s.entries e).ref - 1 }).setHandler h
      (if (s.entries e).ref - 1 = 0 then .freeing e false else .waiting)) := by
  rw [setEntry_setHandler]
  by_cases hlast : (s.entries e).ref - 1 = 0
  · rw [if_pos hlast]
    have ht : Turned s h e { s.entries e with ref := (s.entries e).ref - 1 } (s.idleList (s.entries e).target)
        (.dropping e) (.freeing e false) [] .dropping (some .freeing) :=
      Turned.plain hs hpc rfl rfl rfl rfl rfl (by simp) (by simp) (by simp)
    exact ht.quiet hs ((hs.ok e).dropLast ht.shift ht.standing_entry ht.listed ht.sameLog hlast) rfl
  · rw [if_neg hlast]
    have ht : Turned s h e { s.entries e with ref := (s.entries e).ref - 1 } (s.idleList (s.entries e).target)
        (.dropping e) .waiting [] .dropping none :=
      Turned.plain hs hpc rfl rfl rfl rfl rfl (by simp) (by simp) (by simp)
    exact ht.quiet hs ((hs.ok e).drop ht.shift ht.standing_entry ht.listed ht.sameLog) rfl

theorem kept_freeing (hs : s.Sound) {direct : Bool} (hpc : s.handlers[h]? = some (.freeing e direct)) :
    Kept s (((s.setEntry e { s.entries e with released := true }).setHandler h .waiting).record
      (.releaseConn (some h) e (s.entries e).ref)) := by
  rw [setEntry_setHandler, record_turn]
  have hadds : ((s.turn h e { s.entries e with released := true } (s.idleList (s.entries e).target) .waiting
      [.releaseConn (some h) e (s.entries e).ref]).standing e).adds = (s.standing e).adds := by
    rw [turn_adds]
    simp [Event.isAddRead]
  have hfrees : ((s.turn h e { s.entries e with released := true } (s.idleList (s.entries e).target) .waiting
      [.releaseConn (some h) e (s.entries e).ref]).standing e).frees
      = (s.standing e).frees ++ [(s.entries e).ref] := by
    rw [turn_frees]
    simp [Event.freedRef]
  have habout : ∀ event ∈ [Event.releaseConn (some h) e (s.entries e).ref], ∀ e', e' ≠ e →
      event.entry ≠ some e' := by
    intro event hmem e' hne
    rw [List.mem_singleton.1 hmem]
    simpa [Event.entry] using Ne.symm hne
  cases direct with
  | true =>
      have ht : Turned s h e { s.entries e with released := true } (s.idleList (s.entries e).target)
          (.freeing e true) .waiting [.releaseConn (some h) e (s.entries e).ref] .direct none :=
        Turned.plain hs hpc rfl rfl rfl rfl rfl habout (by simp) (by simp)
      exact ht.noted hs ((hs.ok e).freeDirect ht.shift ht.standing_entry ht.listed ⟨hadds, hfrees⟩)
        rfl rfl rfl rfl
  | false =>
      have ht : Turned s h e { s.entries e with released := true } (s.idleList (s.entries e).target)
          (.freeing e false) .waiting [.releaseConn (some h) e (s.entries e).ref] .freeing none :=
        Turned.plain hs hpc rfl rfl rfl rfl rfl habout (by simp) (by simp)
      exact ht.noted hs ((hs.ok e).free ht.shift ht.standing_entry ht.listed ⟨hadds, hfrees⟩)
        rfl rfl rfl rfl

theorem kept_handlerStep (hs : s.Sound)
    (hwhole : ∀ result, s.handlers[h]? = some (.took result) → result.operation = .connect →
      result.state = .finished → sendMessage io.out ≤ 0)
    (hstep : s.handlerStep h io = some s') : Kept s s' := by
  have hstep' := hstep
  unfold handlerStep at hstep
  split at hstep
  case h_1 result hpc =>
    split at hstep
    case isTrue hoperation =>
      cases hstep
      exact kept_handleConnect hs hpc hoperation (hwhole result hpc hoperation)
    case isFalse hoperation =>
      split at hstep
      case h_1 hsuccess =>
        cases hstep
        exact kept_succeeding hs hpc hsuccess
      case h_2 hmodified =>
        exact absurd hmodified (hs.results result (.inr (.inr (List.mem_of_getElem? hpc)))).1
      case h_3 hsuccess _ =>
        exact kept_handleClose hs hpc hoperation hsuccess hstep
  case h_2 e hpc =>
    cases hstep
    exact kept_handleAdd hs hpc
  case h_3 e σ hpc =>
    cases hstep
    exact kept_handleSuccess hs hpc
  case h_4 e alive reply hpc =>
    exact kept_unlocking hs hpc hstep'
  case h_5 e reply direct hpc =>
    cases hstep
    have hvoice : s.ledger.voices[h]?
        = some (some { entry := e, session := reply.session, announced := false }) := by
      simp [ledger, hpc, HandlerPc.voice]
    exact kept_call hs hpc rfl rfl rfl (by simp) (by simp) (.release s.ledger h e reply.session hvoice)
  case h_6 e reply direct hpc =>
    cases hstep
    have hvoice : s.ledger.voices[h]?
        = some (some { entry := e, session := reply.session, announced := true }) := by
      simp [ledger, hpc, HandlerPc.voice]
    have hanswer := Ledger.Step.answer s.ledger h e reply.session reply.state reply.error hvoice
    cases direct with
    | true => exact kept_call hs hpc rfl rfl rfl (by simp) (by simp) hanswer
    | false => exact kept_call hs hpc rfl rfl rfl (by simp) (by simp) hanswer
  case h_7 e hpc =>
    cases hstep
    exact kept_dropping hs hpc
  case h_8 e direct hpc =>
    cases hstep
    exact kept_freeing hs hpc
  case h_9 =>
    cases hstep

end Handlers

end State

end WorkflowModel.Kernel.Communicator
