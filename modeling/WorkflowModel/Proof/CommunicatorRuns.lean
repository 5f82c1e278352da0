import WorkflowModel.Proof.CommunicatorRequests

/-!
# Sessions and entries over whole runs

If every message is written whole or not at all, no accepted session is forgotten: until it is answered, its
connection is with the poller or has a result under way, or a handler thread has the answer. It is answered
once, after one `release` of its target. An entry is released once, and nobody comes back to it but the thread
that found the reply complete when the connection ended.
-/

namespace WorkflowModel.Kernel.Communicator

/-- The states in which the end of a connection is told to a session. -/
def ConnState.tells : ConnState → Bool
  | .connecting => true
  | .receiving => true
  | .error => true
  | _ => false

namespace State

variable {s s' : State} {e : Nat}

def UnderWay (s : State) (result : Result) : Prop :=
  result ∈ s.pipe ∨ result ∈ s.queue ∨ .took result ∈ s.handlers

/-- The poller has the connection, or gave it up with a result that is under way, or a handler thread is about
to register it for reading. -/
def Watched (s : State) (e : Nat) : Prop :=
  (s.entries e).node ≠ none ∨ (∃ result, s.UnderWay result ∧ result.entry = e ∧ result.state ≠ .success)
    ∨ .adding e ∈ s.handlers

def Replied (s : State) (e : Nat) : Prop :=
  (∃ result, s.UnderWay result ∧ result.entry = e ∧ result.state = .success)
    ∨ ∃ σ, .succeeding e σ ∈ s.handlers

/-- Every accepted session that is not answered yet has a connection whose next result will answer it, or a
handler thread with its answer. -/
def NoOrphan (s : State) : Prop :=
  ∀ σ session, s.sessions[σ]? = some session → session.pc = .accepted →
    (∀ h state error, .handle h σ state error ∉ s.log) →
    (∃ e, session.conn = some e ∧ (s.entries e).session = σ ∧ (s.entries e).released = false
      ∧ ((s.Watched e ∧ (s.entries e).state.tells = true) ∨ s.Replied e))
    ∨ ∃ pc ∈ s.handlers, ∃ voice, pc.voice = some voice ∧ voice.session = σ

/-- The handler thread is about to call `handle` for the session. -/
def Told (s : State) (h σ : Nat) : Prop :=
  ∃ pc voice, s.handlers[h]? = some pc ∧ pc.voice = some voice ∧ voice.session = σ

/-- The end of a connection is told to the session that waits for the reply. -/
theorem handleClose_tells {h : Nat} {pc : HandlerPc} {result : Result} (hpc : s.handlers[h]? = some pc)
    (hstate : (s.entries result.entry).state = .receiving ∨ (s.entries result.entry).state = .error)
    (hstep : s.handleClose h result = some s') : s'.Told h (s.entries result.entry).session := by
  obtain ⟨hh, -⟩ := List.getElem?_eq_some_iff.1 hpc
  unfold handleClose at hstep
  dsimp only at hstep
  split at hstep
  · cases hstep
  · rcases hstate with hstate | hstate
    · simp only [hstate, Option.some.injEq] at hstep
      subst hstep
      exact ⟨_, _, List.getElem?_set_self hh, rfl, rfl⟩
    · simp only [hstate, Option.some.injEq] at hstep
      subst hstep
      exact ⟨_, _, List.getElem?_set_self hh, rfl, rfl⟩

theorem handleConnect_tells {h : Nat} {pc : HandlerPc} {io : HandlerIo} {result : Result}
    (hpc : s.handlers[h]? = some pc)
    (hstate : result.state = .error ∨ result.state = .deleted ∨ result.state = .stopped) :
    (s.handleConnect h io result).Told h (s.entries result.entry).session := by
  obtain ⟨hh, -⟩ := List.getElem?_eq_some_iff.1 hpc
  unfold handleConnect
  rcases hstate with hstate | hstate | hstate <;> rw [hstate] <;>
    exact ⟨_, _, List.getElem?_set_self hh, rfl, rfl⟩

theorem exists_of_count_pos {k : Kind} (hpos : 0 < s.count e k) :
    (∃ node, (s.entries e).node = some node ∧ node.kind = k)
      ∨ (∃ result, s.UnderWay result ∧ result.entry = e ∧ result.kind = k)
      ∨ (∃ pc ∈ s.handlers, pc.part = some (e, k) ∧ ∀ result, pc ≠ .took result)
      ∨ ∃ session ∈ s.sessions, session.pc.part = some (e, k) := by
  by_cases hnode : nodeCount (s.entries e).node k = 0
  · by_cases hpipe : (s.pipe.countP fun result => (result.entry, result.kind) = (e, k)) = 0
    · by_cases hqueue : (s.queue.countP fun result => (result.entry, result.kind) = (e, k)) = 0
      · by_cases hhandlers : (s.handlers.countP fun pc => pc.part = some (e, k)) = 0
        · have hsessions : 0 < s.sessions.countP fun session => session.pc.part = some (e, k) := by
            simp only [count] at hpos
            omega
          obtain ⟨session, hmem, hpart⟩ := List.countP_pos_iff.1 hsessions
          exact .inr (.inr (.inr ⟨session, hmem, by simpa using hpart⟩))
        · obtain ⟨pc, hmem, hpart⟩ := List.countP_pos_iff.1 (Nat.pos_of_ne_zero hhandlers)
          have hpart : pc.part = some (e, k) := by simpa using hpart
          by_cases htook : ∃ result, pc = .took result
          · obtain ⟨result, rfl⟩ := htook
            simp only [HandlerPc.part, Option.some.injEq, Prod.mk.injEq] at hpart
            exact .inr (.inl ⟨result, .inr (.inr hmem), hpart.1, hpart.2⟩)
          · exact .inr (.inr (.inl ⟨pc, hmem, hpart, fun result heq => htook ⟨result, heq⟩⟩))
      · obtain ⟨result, hmem, hpart⟩ := List.countP_pos_iff.1 (Nat.pos_of_ne_zero hqueue)
        have hpart : result.entry = e ∧ result.kind = k := by simpa using hpart
        exact .inr (.inl ⟨result, .inr (.inl hmem), hpart.1, hpart.2⟩)
    · obtain ⟨result, hmem, hpart⟩ := List.countP_pos_iff.1 (Nat.pos_of_ne_zero hpipe)
      have hpart : result.entry = e ∧ result.kind = k := by simpa using hpart
      exact .inr (.inl ⟨result, .inl hmem, hpart.1, hpart.2⟩)
  · left
    unfold nodeCount at hnode
    cases hentry : (s.entries e).node with
    | none => simp [hentry] at hnode
    | some node =>
        refine ⟨node, rfl, ?_⟩
        simpa [hentry] using hnode

theorem Result.state_ne_success {result : Result} (h : result.kind ≠ .success) : result.state ≠ .success := by
  intro hstate
  exact h (by simp [Result.kind, hstate])

theorem Result.state_eq_success {result : Result} (h : result.kind = .success) : result.state = .success := by
  unfold Result.kind at h
  split at h
  · assumption
  · split at h <;> cases h

theorem watched_of_count_pos {k : Kind} (hk : k = .opening ∨ k = .adding ∨ k = .reading)
    (hpos : 0 < s.count e k) : s.Watched e := by
  rcases exists_of_count_pos hpos with ⟨node, hnode, -⟩ | ⟨result, hunder, hentry, hkind⟩
    | ⟨pc, hmem, hpart, htook⟩ | ⟨session, -, hpart⟩
  · left
    rw [hnode]
    simp
  · refine .inr (.inl ⟨result, hunder, hentry, Result.state_ne_success ?_⟩)
    rw [hkind]
    rcases hk with rfl | rfl | rfl <;> simp
  · cases pc with
    | adding e' =>
        simp only [HandlerPc.part, Option.some.injEq, Prod.mk.injEq] at hpart
        rw [← hpart.1]
        exact .inr (.inr hmem)
    | took result => exact absurd rfl (htook result)
    | _ =>
        simp only [HandlerPc.part] at hpart
        rcases hk with rfl | rfl | rfl <;> grind
  · cases hpc : session.pc <;> simp only [hpc, RequestPc.part] at hpart <;>
      rcases hk with rfl | rfl | rfl <;> grind

theorem replied_of_count_pos (hpos : 0 < s.count e .success) : s.Replied e := by
  rcases exists_of_count_pos hpos with ⟨node, -, hkind⟩ | ⟨result, hunder, hentry, hkind⟩
    | ⟨pc, hmem, hpart, htook⟩ | ⟨session, -, hpart⟩
  · unfold Registration.kind at hkind
    split at hkind <;> cases hkind
  · exact .inl ⟨result, hunder, hentry, Result.state_eq_success hkind⟩
  · cases pc with
    | succeeding e' σ =>
        simp only [HandlerPc.part, Option.some.injEq, Prod.mk.injEq, and_true] at hpart
        rw [← hpart]
        exact .inr ⟨σ, hmem⟩
    | took result => exact absurd rfl (htook result)
    | _ =>
        simp only [HandlerPc.part] at hpart
        grind
  · cases hpc : session.pc <;> simp only [hpc, RequestPc.part] at hpart <;> grind

theorem handles_eq_zero {σ : Nat} (h : ∀ thread state error, .handle thread σ state error ∉ s.log) :
    s.ledger.handles σ = 0 := by
  rw [Ledger.handles, List.countP_eq_zero]
  intro event hmem
  cases event with
  | handle thread σ' state error =>
      simp only [Event.isHandle, decide_eq_true_eq]
      rintro rfl
      exact h thread state error hmem
  | _ => simp [Event.isHandle]

theorem noOrphan_of_reached {n : Nat} (hreached : Reached WholeSends n s) : s.NoOrphan := by
  obtain ⟨hs, hl⟩ := sound_of_reached hreached
  intro σ session hsession hpc hhandled
  have hbond := ledger_bonds_getElem? hsession
  have hbound : s.ledger.Bound σ := ⟨session.bond, hbond, by simp [Session.bond, hpc]⟩
  rcases hl.owed_or_voiced hbound (handles_eq_zero hhandled) with ⟨e, hdebt⟩ | hvoiced
  · left
    obtain ⟨bond, hbond', hconn, -⟩ := hl.bond e σ hdebt
    rw [hbond] at hbond'
    cases hbond'
    have howes : (s.standing e).Owes ∧ (s.entries e).session = σ := by
      change (s.standing e).debt = some σ at hdebt
      unfold Standing.debt at hdebt
      split at hdebt
      · exact ⟨‹_›, Option.some.inj hdebt⟩
      · cases hdebt
    have halive : ∀ k, k ≠ .dead → 0 < s.count e k → (s.entries e).released = false :=
      fun k hk hpos => (hs.ok e).alive hk hpos
    rcases howes.1 with ⟨hparts, hstate⟩ | hsuccess
    · have hpos : 0 < s.count e .opening ∨ 0 < s.count e .adding ∨ 0 < s.count e .reading := by
        change s.count e .opening + s.count e .adding + s.count e .reading = 1 at hparts
        omega
      have htells : (s.entries e).state.tells = true := by
        change (s.entries e).state = _ ∨ (s.entries e).state = _ ∨ (s.entries e).state = _ at hstate
        rcases hstate with hstate | hstate | hstate <;> rw [hstate] <;> rfl
      rcases hpos with hpos | hpos | hpos
      · exact ⟨e, hconn, howes.2, halive _ (by simp) hpos, .inl ⟨watched_of_count_pos (by simp) hpos, htells⟩⟩
      · exact ⟨e, hconn, howes.2, halive _ (by simp) hpos, .inl ⟨watched_of_count_pos (by simp) hpos, htells⟩⟩
      · exact ⟨e, hconn, howes.2, halive _ (by simp) hpos, .inl ⟨watched_of_count_pos (by simp) hpos, htells⟩⟩
    · have hpos : 0 < s.count e .success := by
        change s.count e .success = 1 at hsuccess
        omega
      exact ⟨e, hconn, howes.2, halive _ (by simp) hpos, .inr (replied_of_count_pos hpos)⟩
  · right
    obtain ⟨voice, hmem, hvoice⟩ := List.countP_pos_iff.1 hvoiced
    obtain ⟨pc, hpc', rfl⟩ := List.mem_map.1 hmem
    cases hsome : pc.voice with
    | none => simp [hsome] at hvoice
    | some voice =>
        refine ⟨pc, hpc', voice, hsome, ?_⟩
        simpa [hsome] using hvoice

def run (s : State) : List Input → Option State
  | [] => some s
  | input :: inputs => (s.step input).bind fun s => s.run inputs

theorem reached_run {allowed : State → Input → Prop} {n : Nat} (inputs : List Input)
    (hallowed : ∀ input ∈ inputs, ∀ s, allowed s input) (hreached : Reached allowed n s)
    (hrun : s.run inputs = some s') : Reached allowed n s' := by
  induction inputs generalizing s with
  | nil =>
      cases hrun
      exact hreached
  | cons input inputs ih =>
      obtain ⟨t, hstep, hrun⟩ := Option.bind_eq_some_iff.1 hrun
      refine ih (fun input' hmem => hallowed input' (List.mem_cons_of_mem _ hmem)) ?_ hrun
      exact .step input hreached (hallowed input List.mem_cons_self s) hstep

/-- Whatever state a step is taken in, its message is written whole or not at all. -/
def wholeInput : Input → Bool
  | .send _ out => sendMessage out ≤ 0
  | .handler _ io => sendMessage io.out ≤ 0
  | _ => true

theorem wholeSends_of_wholeInput {input : Input} (h : wholeInput input = true) (s : State) : s.WholeSends input := by
  cases input with
  | send σ out =>
      change sendMessage out ≤ 0
      exact of_decide_eq_true h
  | handler h' io => exact fun _ _ _ _ => of_decide_eq_true h
  | _ => trivial

def openInputs : List Input := [.request 0, .launch 0 .added]

def wholeIo : HandlerIo := { out := .encoded [5] [.wrote 5] 0, added := true, errno := 0 }

/-- The connection is established, and its message is written and answered. -/
def repliedInputs : List Input :=
  openInputs ++ [.connectDone 0 0, .take 0, .handler 0 wholeIo, .handler 0 wholeIo, .readReady 0,
    .createMessage 0 true 0, .append 0 1000]

/-- A thread tells the session of its reply, and the next request takes the idle connection. -/
def reuseInputs : List Input :=
  repliedInputs ++ .take 0 :: List.replicate 5 (.handler 0 wholeIo)
    ++ [.request 0, .send 1 (.encoded [5] [.wrote 5] 0), .unlock 1]

/-- The connection ends behind the reply. One thread takes the reply and another the end, and the end is handled
before the reply. -/
def racedInputs : List Input :=
  repliedInputs ++ [.readDone 0 0, .take 0, .take 1, .handler 1 wholeIo] ++ List.replicate 5 (.handler 0 wholeIo)
    ++ [.handler 1 wholeIo, .handler 0 wholeIo]

/-- The connection is refused, and the handler thread tells the session. -/
def refusedInputs : List Input :=
  openInputs ++ [.connectDone 0 111, .take 0] ++
    List.replicate 4 (.handler 0 { out := .noMessage 0, added := true, errno := 0 })

/-- The connection is established, and the kernel takes no byte of the message. -/
def shortInputs : List Input :=
  openInputs ++ [.connectDone 0 0, .take 0,
    .handler 0 { out := .encoded [5] [.eagain] 0, added := true, errno := 0 }]

def ranState (handlerThreads : Nat) (inputs : List Input) : State :=
  ((initialState handlerThreads).run inputs).getD (initialState handlerThreads)

theorem reached_ranState {n : Nat} {inputs : List Input} (hwhole : inputs.all wholeInput = true)
    (hrun : ((initialState n).run inputs).isSome = true) : Reached WholeSends n (ranState n inputs) := by
  obtain ⟨s, hs⟩ := Option.isSome_iff_exists.1 hrun
  have hran : ranState n inputs = s := by rw [ranState, hs, Option.getD_some]
  rw [hran]
  exact reached_run inputs (fun input hmem => wholeSends_of_wholeInput (List.all_eq_true.1 hwhole input hmem)) .init hs

/-- The second session waits on the connection that the first one has left, and it is told when that one ends. The
session of a connection that is refused is told as well. -/
theorem noOrphan_reuseState :
    ((ranState 1 reuseInputs).sessions.map fun session => (session.pc, session.conn))
        = [(.accepted, some 0), (.accepted, some 0)]
      ∧ ((ranState 1 reuseInputs).entries 0).state = .receiving ∧ (ranState 1 reuseInputs).NoOrphan
      ∧ (ranState 1 (reuseInputs ++ [.readDone 0 104, .take 0, .handler 0 wholeIo])).Told 0 1
      ∧ (ranState 1 (openInputs ++ [.connectDone 0 111, .take 0, .handler 0 wholeIo])).Told 0 0 := by
  have hreached : Reached WholeSends 1 (ranState 1 reuseInputs) := reached_ranState rfl rfl
  refine ⟨rfl, rfl, noOrphan_of_reached hreached, ?_, ?_⟩
  · have hclose : (ranState 1 (reuseInputs ++ [.readDone 0 104, .take 0])).handleClose 0 ⟨0, .read, .error, 104⟩
        = some (ranState 1 (reuseInputs ++ [.readDone 0 104, .take 0, .handler 0 wholeIo])) := rfl
    have htook : (ranState 1 (reuseInputs ++ [.readDone 0 104, .take 0])).handlers[0]?
        = some (.took ⟨0, .read, .error, 104⟩) := rfl
    exact handleClose_tells htook (.inl rfl) hclose
  · have htook : (ranState 1 (openInputs ++ [.connectDone 0 111, .take 0])).handlers[0]?
        = some (.took ⟨0, .connect, .error, 111⟩) := rfl
    have hconnect : (ranState 1 (openInputs ++ [.connectDone 0 111, .take 0, .handler 0 wholeIo]))
        = (ranState 1 (openInputs ++ [.connectDone 0 111, .take 0])).handleConnect 0 wholeIo
            ⟨0, .connect, .error, 111⟩ := rfl
    rw [hconnect]
    exact handleConnect_tells htook (.inl rfl)

/-- A session whose message was not written has no connection that the poller knows. -/
theorem orphan_shortState : ¬ ∀ (n : Nat) (s : State), Reached (fun _ _ => True) n s → s.NoOrphan := by
  intro h
  have hreached : Reached (fun _ _ => True) 1 (ranState 1 shortInputs) :=
    reached_run shortInputs (fun _ _ _ => trivial) .init rfl
  have horphan := h 1 _ hreached 0 { target := 0, conn := some 0, timeout := 0, pc := .accepted } rfl rfl
    (fun thread state error hmem => by cases hmem)
  have hpipe : (ranState 1 shortInputs).pipe = [] := rfl
  have hqueue : (ranState 1 shortInputs).queue = [] := rfl
  have hhandlers : (ranState 1 shortInputs).handlers = [.waiting] := rfl
  have hnone : ∀ result, ¬ (ranState 1 shortInputs).UnderWay result := by
    rintro result (hmem | hmem | hmem)
    · simp [hpipe] at hmem
    · simp [hqueue] at hmem
    · simp [hhandlers] at hmem
  rcases horphan with ⟨e, hconn, -, -, hwatched | hreplied⟩ | ⟨pc, hmem, voice, hvoice, -⟩
  · cases hconn
    rcases hwatched.1 with hnode | ⟨result, hunder, -⟩ | hadding
    · exact hnode rfl
    · exact hnone result hunder
    · simp [hhandlers] at hadding
  · rcases hreplied with ⟨result, hunder, -⟩ | ⟨σ, hsucceeding⟩
    · exact hnone result hunder
    · simp [hhandlers] at hsucceeding
  · rw [hhandlers, List.mem_singleton] at hmem
    subst hmem
    cases hvoice

/-- The entries that a step reads or writes; the idle list is linked through its entries. -/
def Touches (s : State) : Input → Nat → Prop
  | .request target, e => e ∈ s.idleList target
  | .send σ _, e => ∃ session, s.sessions[σ]? = some session ∧ session.pc = .sending e
  | .unlock σ, e => ∃ session, s.sessions[σ]? = some session ∧ session.pc = .unlocking e
  | .connectDone e' _, e => e' = e
  | .readDone e' _, e => e' = e
  | .readReady e', e => e' = e
  | .createMessage e' _ _, e => e' = e
  | .append e' _, e => e' = e
  | .handler h _, e => ∃ pc e' k, s.handlers[h]? = some pc ∧ pc.part = some (e', k)
      ∧ (e = e' ∨ e ∈ s.idleList (s.entries e').target)
  | .launch _ _, _ => False
  | .deliver, _ => False
  | .take _, _ => False

/-- A handler thread unlocks the mutex of an entry that it has left to the complete reply. -/
def Unlocks (s : State) (input : Input) (e : Nat) : Prop :=
  ∃ h io reply, input = .handler h io ∧ s.handlers[h]? = some (.unlocking e false reply)

structure AnswersOnce (s : State) : Prop where
  handled : ∀ σ, s.log.countP (Event.isHandle σ) ≤ 1
  announced : ∀ σ, s.log.countP (Event.isRelease σ) ≤ 1
  paired : ∀ before after h σ state error, s.log = before ++ .handle h σ state error :: after →
    ∃ session, s.sessions[σ]? = some session ∧ lastCall h before = some (.release h session.target σ)
  freed : ∀ e, (s.log.filterMap (Event.freedRef e) = [] ∨ s.log.filterMap (Event.freedRef e) = [0]
    ∨ s.log.filterMap (Event.freedRef e) = [1] ∧ ∀ h, .addRead h e ∉ s.log)
  untouched : ∀ input s', s.step input = some s' → ∀ e, s.Touches input e →
    (∃ h ref, .releaseConn h e ref ∈ s.log) → s.Unlocks input e

theorem released_of_mem_log (hs : s.Sound) {h : Option Nat} {ref : Int} (hmem : .releaseConn h e ref ∈ s.log) :
    (s.entries e).released = true := by
  by_contra hne
  have hkept := (hs.ok e).kept (by simpa [standing] using hne)
  have hfreed : ref ∈ (s.standing e).frees :=
    List.mem_filterMap.2 ⟨_, hmem, by simp [Event.freedRef]⟩
  rw [hkept] at hfreed
  cases hfreed

theorem not_mem_idleList_of_released (hs : s.Sound) (hreleased : (s.entries e).released = true) (τ : Nat) :
    e ∉ s.idleList τ := by
  intro hmem
  have hlisted := ((hs.mem_idleList_iff e τ).1 hmem).2
  rw [((hs.ok e).released hreleased).1] at hlisted
  cases hlisted

theorem count_of_released (hs : s.Sound) (hreleased : (s.entries e).released = true) {k : Kind}
    (hpos : 0 < s.count e k) : k = .dead := by
  by_contra hk
  have halive := (hs.ok e).alive hk hpos
  change (s.entries e).released = false at halive
  rw [hreleased] at halive
  cases halive

theorem node_of_released (hs : s.Sound) (hreleased : (s.entries e).released = true) :
    (s.entries e).node = none := by
  cases hnode : (s.entries e).node with
  | none => rfl
  | some node =>
      have hdead := count_of_released hs hreleased (count_pos_of_node hnode)
      unfold Registration.kind at hdead
      split at hdead <;> cases hdead

theorem unlocks_of_touches (hs : s.Sound) {input : Input} (hstep : s.step input = some s')
    (htouches : s.Touches input e) (hreleased : (s.entries e).released = true) : s.Unlocks input e := by
  have hnode := node_of_released hs hreleased
  cases input with
  | request target => exact absurd htouches (not_mem_idleList_of_released hs hreleased target)
  | send σ out =>
      obtain ⟨session, hsession, hpc⟩ := htouches
      have hdead := count_of_released hs hreleased
        (count_pos_of_session (k := .taken) hsession (by rw [hpc]; rfl))
      cases hdead
  | unlock σ =>
      obtain ⟨session, hsession, hpc⟩ := htouches
      have hdead := count_of_released hs hreleased
        (count_pos_of_session (k := .leaving) hsession (by rw [hpc]; rfl))
      cases hdead
  | connectDone e' error =>
      cases htouches
      simp [step, connectDone, hnode] at hstep
  | readDone e' error =>
      cases htouches
      simp [step, readDone, hnode] at hstep
  | readReady e' =>
      cases htouches
      simp [step, readReady, hnode] at hstep
  | createMessage e' created errno =>
      cases htouches
      simp [step, createMessage, hnode] at hstep
  | append e' timeout =>
      cases htouches
      simp [step, append, hnode] at hstep
  | handler h io =>
      obtain ⟨pc, e', k, hpc, hpart, heq | hmem⟩ := htouches
      · subst heq
        have hdead := count_of_released hs hreleased (count_pos_of_handler hpc hpart)
        subst hdead
        cases pc with
        | unlocking e' alive reply =>
            cases alive with
            | true => simp [HandlerPc.part] at hpart
            | false =>
                simp only [HandlerPc.part, Option.some.injEq, Prod.mk.injEq] at hpart
                rw [hpart.1] at hpc
                exact ⟨h, io, reply, rfl, hpc⟩
        | took result =>
            simp only [HandlerPc.part, Result.kind, Option.some.injEq, Prod.mk.injEq] at hpart
            grind
        | _ =>
            simp only [HandlerPc.part] at hpart
            grind
      · exact absurd hmem (not_mem_idleList_of_released hs hreleased _)
  | launch σ outcome => exact htouches.elim
  | deliver => exact htouches.elim
  | take h => exact htouches.elim

theorem announced_le_voiced (l : Ledger) (σ : Nat) : l.announced σ ≤ l.voiced σ := by
  refine List.countP_mono_left ?_
  intro voice _ h
  cases voice with
  | none => exact h
  | some voice =>
      simp only [Option.any_some, Bool.and_eq_true] at h ⊢
      exact h.1

theorem answersOnce_of_reached {n : Nat} (hreached : Reached WholeSends n s) : s.AnswersOnce := by
  obtain ⟨hs, hl⟩ := sound_of_reached hreached
  refine ⟨hl.handles_le_one, ?_, ?_, ?_, ?_⟩
  · intro σ
    have hreleases := hl.releases σ
    have hvoiced := announced_le_voiced s.ledger σ
    have htotal := hl.handles_add_voiced_le_one σ
    change s.ledger.releases σ ≤ 1
    omega
  · intro before after h σ state error hsplit
    obtain ⟨bond, hbond, hlast⟩ := hl.paired before after h σ state error hsplit
    obtain ⟨session, hsession, rfl⟩ : ∃ session, s.sessions[σ]? = some session ∧ session.bond = bond := by
      simpa [ledger] using hbond
    exact ⟨session, hsession, hlast⟩
  · intro e
    by_cases hreleased : (s.entries e).released = true
    · rcases (hs.ok e).freed hreleased with hzero | ⟨hone, hadds⟩
      · exact .inr (.inl hzero)
      · refine .inr (.inr ⟨hone, ?_⟩)
        intro h hmem
        have hpos : 0 < s.log.countP (Event.isAddRead e) :=
          List.countP_pos_iff.2 ⟨_, hmem, by simp [Event.isAddRead]⟩
        change s.log.countP (Event.isAddRead e) = 0 at hadds
        omega
    · exact .inl ((hs.ok e).kept (by simpa [standing] using hreleased))
  · rintro input s' hstep e htouches ⟨h, ref, hmem⟩
    exact unlocks_of_touches hs hstep htouches (released_of_mem_log hs hmem)

theorem answersOnce_racedState :
    (ranState 2 racedInputs).log.filter (Event.isHandle 0) = [.handle 0 0 .success 0]
      ∧ (ranState 2 racedInputs).log.filterMap (Event.freedRef 0) = [0] ∧ (ranState 2 racedInputs).AnswersOnce := by
  have hreached : Reached WholeSends 2 (ranState 2 racedInputs) := reached_ranState rfl rfl
  exact ⟨rfl, rfl, answersOnce_of_reached hreached⟩

/-- A connection that is refused is released with its only reference. -/
theorem freed_refusedState : ¬ ∀ (n : Nat) (s : State), Reached WholeSends n s →
    ∀ h e ref, .releaseConn h e ref ∈ s.log → ref = 0 := by
  intro hall
  have hreached : Reached WholeSends 1 (ranState 1 refusedInputs) := reached_ranState rfl rfl
  have hzero := hall 1 _ hreached (some 0) 0 1 (by decide)
  cases hzero

end State

end WorkflowModel.Kernel.Communicator
