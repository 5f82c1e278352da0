import WorkflowModel.Lib.Framing
import WorkflowModel.Kernel.ReadMessage

/-!
# Every session gets its own reply

Only a connection that waits for a reply creates a message, so the sessions of a connection are answered one after
the other, in the order of their requests. When the message of each session frames the reply that the peer has
sent for it, every reply is handed over to its session and to no other one, whatever the reads are.
-/

namespace WorkflowModel.Kernel.ReadMessage

open WorkflowModel WorkflowModel.Kernel WorkflowModel.Kernel.Communicator

variable {μ : Type} {messageAppend : Bytes → μ → Int × Nat × μ} {c t : Conn μ} {input : Input μ}
  {inputs : List (Input μ)}

/-- The message that takes the bytes is there, or the session has one for the reply that begins. -/
def Conn.Holds (c : Conn μ) (msg : μ) : Prop :=
  c.message = some msg ∨ c.message = none ∧ c.state = .receiving ∧ c.sessions.getLast? = some (some msg)

/-- After the message has used `n` of the bytes. -/
def Conn.used (io : Io) (ret : Int) (n : Nat) (next : μ) (c : Conn μ) : Conn μ :=
  let u : Conn μ :=
    if 0 < ret then
      { c with state := .success, timeout := io.timeout, message := none
               handed := c.handed ++ [(c.sessions.length - 1, next)] }
    else
      { c with message := some next }
  if ret < 0 ∨ c.buffer.length < n then { u with buffer := [], ended := some (.refused io.errno) }
  else { u with buffer := c.buffer.drop n }

theorem appendMessage_cases (messageAppend : Bytes → μ → Int × Nat × μ) (io : Io) (c : Conn μ) :
    (c.message = none
      ∧ ∃ errno, c.appendMessage messageAppend io = { c with buffer := [], ended := some (.notCreated errno) })
    ∨ ∃ msg ret n next, c.Holds msg ∧ messageAppend c.buffer msg = (ret, n, next)
        ∧ c.appendMessage messageAppend io = c.used io ret n next := by
  have hround : ∀ msg ret n next, messageAppend c.buffer msg = (ret, n, next) →
      (if (c.appendTo messageAppend io msg).1 < 0 ∨ c.buffer.length < (c.appendTo messageAppend io msg).2.1 then
        ({ (c.appendTo messageAppend io msg).2.2 with buffer := [], ended := some (.refused io.errno) } : Conn μ)
       else { (c.appendTo messageAppend io msg).2.2 with buffer := c.buffer.drop (c.appendTo messageAppend io msg).2.1 })
        = c.used io ret n next := by
    intro msg ret n next hcall
    simp only [Conn.appendTo, Conn.append, hcall, Conn.used]
    split_ifs <;> rfl
  cases hmessage : c.message with
  | some msg =>
      obtain ⟨ret, n, next, hcall⟩ : ∃ ret n next, messageAppend c.buffer msg = (ret, n, next) := ⟨_, _, _, rfl⟩
      refine .inr ⟨msg, ret, n, next, .inl hmessage, hcall, ?_⟩
      rw [← hround msg ret n next hcall, Conn.appendMessage, hmessage]
  | none =>
      by_cases hallocated : io.allocated = true
      · cases hcreated : c.createMessage io with
        | mk created errno =>
            cases created with
            | none =>
                refine .inl ⟨rfl, errno, ?_⟩
                rw [Conn.appendMessage, hmessage]
                simp only [hallocated, if_true, hcreated]
            | some msg =>
                obtain ⟨ret, n, next, hcall⟩ : ∃ ret n next, messageAppend c.buffer msg = (ret, n, next) :=
                  ⟨_, _, _, rfl⟩
                have hholds : c.state = .receiving ∧ c.sessions.getLast? = some (some msg) := by
                  unfold Conn.createMessage at hcreated
                  split_ifs at hcreated with hstate
                  · cases hcreated
                  · exact ⟨not_not.mp hstate, Option.join_eq_some_iff.mp (Prod.mk.inj hcreated).1⟩
                refine .inr ⟨msg, ret, n, next, .inr ⟨hmessage, hholds⟩, hcall, ?_⟩
                rw [← hround msg ret n next hcall, Conn.appendMessage, hmessage]
                simp only [hallocated, if_true, hcreated]
      · refine .inl ⟨rfl, io.errno, ?_⟩
        rw [Conn.appendMessage, hmessage]
        simp only [hallocated, Bool.false_eq_true, if_false]

inductive Effect (messageAppend : Bytes → μ → Int × Nat × μ) (c t : Conn μ) : Prop
  | send (messageIn : Option μ) (idle : c.state = .connecting ∨ c.state = .idle)
      (next : t = { c with state := .receiving, sessions := c.sessions ++ [messageIn] })
  | read (bytes : Bytes) (empty : c.buffer = []) (small : bytes.length ≤ pollerBufsize)
      (next : t = { c with buffer := bytes, received := c.received ++ bytes })
  | stop (e : Ended) (allowed : ∀ errno, e ≠ .refused errno) (next : t = { c with buffer := [], ended := some e })
  | use (io : Io) (msg : μ) (ret : Int) (n : Nat) (after : μ) (running : c.ended = none) (full : c.buffer ≠ [])
      (holds : c.Holds msg) (call : messageAppend c.buffer msg = (ret, n, after)) (next : t = c.used io ret n after)
  | pass (state : ConnState) (before : c.state ≠ .receiving) (after : state ≠ .receiving)
      (next : t = { c with state := state })

theorem effect_of_step (h : c.step messageAppend input = some t) : Effect messageAppend c t := by
  cases input with
  | send messageIn =>
      simp only [Conn.step] at h
      split_ifs at h with hstate
      exact .send messageIn hstate (Option.some.inj h).symm
  | sendFailed =>
      simp only [Conn.step] at h
      split_ifs at h with hstate
      exact .pass .error (by simp [hstate]) (by simp) (Option.some.inj h).symm
  | read bytes =>
      simp only [Conn.step] at h
      split_ifs at h with hready
      exact .read bytes hready.2.2.1 hready.2.2.2.2 (Option.some.inj h).symm
  | readEnd errno =>
      simp only [Conn.step] at h
      split_ifs at h with hready hzero
      · have hempty : ({ c with ended := some .closed } : Conn μ)
            = { c with buffer := [], ended := some .closed } := by
          rw [← hready.2.2]
        exact .stop .closed (fun _ => by simp) ((Option.some.inj h).symm.trans hempty)
      · have hempty : ({ c with ended := some (.failed errno) } : Conn μ)
            = { c with buffer := [], ended := some (.failed errno) } := by
          rw [← hready.2.2]
        exact .stop (.failed errno) (fun _ => by simp) ((Option.some.inj h).symm.trans hempty)
  | appendMessage io =>
      simp only [Conn.step] at h
      split_ifs at h with hready
      obtain ⟨-, errno, hend⟩ | ⟨msg, ret, n, next, hholds, hcall, hused⟩ := appendMessage_cases messageAppend io c
      · exact .stop _ (fun _ => by simp) ((Option.some.inj h).symm.trans hend)
      · exact .use io msg ret n next hready.1 hready.2 hholds hcall ((Option.some.inj h).symm.trans hused)
  | handle =>
      simp only [Conn.step] at h
      split_ifs at h with hstate
      all_goals exact .pass _ (by simp [hstate]) (by simp) (Option.some.inj h).symm

/-- As many messages were handed over as requests were written, but for the one that is waited for. -/
structure Orderly (c : Conn μ) : Prop where
  count : c.handed.length + (if c.state = .receiving then 1 else 0) = c.sessions.length
  order : c.handed.map Prod.fst = List.range c.handed.length
  waits : ∀ msg, c.message = some msg → c.state = .receiving

theorem Orderly.of_holds {msg : μ} (h : Orderly c) (hmsg : c.Holds msg) : c.state = .receiving := by
  obtain hmessage | ⟨-, hstate, -⟩ := hmsg
  · exact h.waits msg hmessage
  · exact hstate

theorem Orderly.used {io : Io} {ret : Int} {n : Nat} {next : μ} (h : Orderly c) (hstate : c.state = .receiving) :
    Orderly (c.used io ret n next) := by
  have hcount := h.count
  rw [if_pos hstate] at hcount
  have hlast : c.sessions.length - 1 = c.handed.length := by omega
  have horder : (c.handed ++ [(c.sessions.length - 1, next)]).map Prod.fst = List.range (c.handed.length + 1) := by
    rw [List.map_append, h.order, List.range_succ, hlast]
    rfl
  unfold Conn.used
  split_ifs with hret hbad hbad
  all_goals
    constructor
    all_goals simp only [List.length_append, List.length_singleton, hstate, if_true, reduceCtorEq, if_false]
  · exact hcount
  · exact horder
  · exact fun _ hnone => hnone
  · exact hcount
  · exact horder
  · exact fun _ hnone => hnone
  · exact hcount
  · exact h.order
  · exact fun _ _ => trivial
  · exact hcount
  · exact h.order
  · exact fun _ _ => trivial

theorem Orderly.step (h : Orderly c) (hstep : c.step messageAppend input = some t) : Orderly t := by
  cases effect_of_step hstep with
  | send messageIn idle next =>
      obtain rfl := next
      have hcount := h.count
      have hstate : c.state ≠ .receiving := by
        intro hreceiving
        rw [hreceiving] at idle
        simp at idle
      rw [if_neg hstate] at hcount
      refine ⟨?_, h.order, fun _ _ => rfl⟩
      simp only [if_true, List.length_append, List.length_singleton]
      omega
  | read bytes empty small next =>
      obtain rfl := next
      exact ⟨h.count, h.order, h.waits⟩
  | stop e allowed next =>
      obtain rfl := next
      exact ⟨h.count, h.order, h.waits⟩
  | use io msg ret n after running full holds call next =>
      obtain rfl := next
      exact h.used (h.of_holds holds)
  | pass state before after next =>
      obtain rfl := next
      have hcount := h.count
      rw [if_neg before] at hcount
      refine ⟨?_, h.order, fun msg hmsg => absurd (h.waits msg hmsg) before⟩
      rw [if_neg after]
      exact hcount

theorem orderly_of_run (h : (connecting μ).run messageAppend inputs = some c) : Orderly c := by
  refine Replay.replay_preserves (fun _ _ _ _ hs hstep => hs.step hstep) ⟨rfl, rfl, fun _ hnone => ?_⟩ h
  cases hnone

/-- What the peer sends for a session, and what its message is to be afterwards. -/
structure Reply (μ : Type) where
  text : Bytes
  Done : μ → Prop

def texts (replies : List (Reply μ)) : Bytes := replies.flatMap Reply.text

theorem texts_take_succ {replies : List (Reply μ)} {k : Nat} {r : Reply μ} (h : replies[k]? = some r) :
    texts (replies.take (k + 1)) = texts (replies.take k) ++ r.text := by
  simp only [texts, List.take_add_one, h, Option.toList_some, List.flatMap_append, List.flatMap_cons, List.flatMap_nil,
    List.append_nil]

section

variable (messageAppend) (replies : List (Reply μ))

def Conn.FramesReplies (c : Conn μ) : Prop :=
  ∀ (i : Nat) (msg : μ) (r : Reply μ), c.sessions[i]? = some (some msg) → replies[i]? = some r →
    Framing.Frames messageAppend pollerBufsize (0 < ·) r.Done r.text msg

def Conn.Receives (c : Conn μ) : Prop := ∃ more rest, c.received ++ more = texts replies ++ rest

/-- What was read is `taken`, and what is left in the buffer. `remaining` is still to come of the reply `r`. -/
structure Place (r : Reply μ) (taken remaining : Bytes) (c : Conn μ) : Prop where
  received : c.received = taken ++ c.buffer
  reply : taken ++ remaining = texts (replies.take (c.handed.length + 1))
  nonempty : remaining ≠ []
  begins : c.message = none → remaining = r.text
  frames : ∀ msg, c.message = some msg → Framing.Frames messageAppend pollerBufsize (0 < ·) r.Done remaining msg

structure Inv (c : Conn μ) : Prop where
  done : ∀ (i : Nat) (x : Nat × μ) (r : Reply μ), c.handed[i]? = some x → replies[i]? = some r → r.Done x.2
  small : c.buffer.length ≤ pollerBufsize
  accepted : c.handed.length < replies.length → ∀ errno, c.ended ≠ some (.refused errno)
  place : c.ended = none → ∀ r, replies[c.handed.length]? = some r →
    ∃ taken remaining, Place messageAppend replies r taken remaining c

end

section

variable {replies : List (Reply μ)} {r : Reply μ} {taken remaining : Bytes} {msg : μ}

theorem Place.frames_of_holds (h : Place messageAppend replies r taken remaining c) (ho : Orderly c)
    (hframes : c.FramesReplies messageAppend replies) (hr : replies[c.handed.length]? = some r)
    (hholds : c.Holds msg) : Framing.Frames messageAppend pollerBufsize (0 < ·) r.Done remaining msg := by
  obtain hmessage | ⟨hnone, hstate, hlast⟩ := hholds
  · exact h.frames msg hmessage
  · have hcount := ho.count
    rw [if_pos hstate] at hcount
    rw [List.getLast?_eq_getElem?, ← hcount, Nat.add_sub_cancel] at hlast
    rw [h.begins hnone]
    exact hframes _ _ _ hlast hr

theorem Place.alike (h : Place messageAppend replies r taken remaining c) (hreceives : c.Receives replies) :
    ∃ more rest, c.buffer ++ more = remaining ++ rest := by
  obtain ⟨more, rest, hwire⟩ := hreceives
  refine ⟨more, texts (replies.drop (c.handed.length + 1)) ++ rest, ?_⟩
  have hsplit : texts replies = taken ++ (remaining ++ texts (replies.drop (c.handed.length + 1))) := by
    calc texts replies
        = texts (replies.take (c.handed.length + 1) ++ replies.drop (c.handed.length + 1)) := by
          rw [List.take_append_drop]
      _ = texts (replies.take (c.handed.length + 1)) ++ texts (replies.drop (c.handed.length + 1)) :=
          List.flatMap_append
      _ = _ := by rw [← h.reply, List.append_assoc]
  rw [h.received, hsplit, List.append_assoc, List.append_assoc, List.append_assoc] at hwire
  exact List.append_cancel_left hwire

theorem take_of_alike {buffer more remaining rest : Bytes} {n : Nat} (h : buffer ++ more = remaining ++ rest)
    (hbuffer : n ≤ buffer.length) (hremaining : n ≤ remaining.length) : buffer.take n = remaining.take n := by
  rw [← List.take_append_of_le_length hbuffer, h, List.take_append_of_le_length hremaining]

theorem Inv.past (h : Inv messageAppend replies c) (hpast : replies.length ≤ c.handed.length)
    (hhanded : c.handed <+: t.handed) (hsmall : t.buffer.length ≤ pollerBufsize) : Inv messageAppend replies t := by
  have hle := hhanded.length_le
  refine ⟨?_, hsmall, fun hlt => absurd hlt (by omega), ?_⟩
  · intro i x r hx hr
    have hi := (List.getElem?_eq_some_iff.mp hr).1
    rw [List.prefix_iff_getElem?.mp hhanded i (by omega)] at hx
    exact h.done i x r ((List.getElem?_eq_getElem (by omega)).trans hx) hr
  · intro _ r hr
    have hi := (List.getElem?_eq_some_iff.mp hr).1
    omega

theorem prefix_handed_used (io : Io) (ret : Int) (n : Nat) (next : μ) (c : Conn μ) :
    c.handed <+: (c.used io ret n next).handed := by
  unfold Conn.used
  split_ifs
  · exact List.prefix_append _ _
  · exact List.prefix_append _ _
  · exact List.prefix_rfl
  · exact List.prefix_rfl

theorem length_buffer_used_le (io : Io) (ret : Int) (n : Nat) (next : μ) (c : Conn μ) :
    (c.used io ret n next).buffer.length ≤ c.buffer.length := by
  have hdrop : (c.buffer.drop n).length ≤ c.buffer.length := by
    rw [List.length_drop]
    exact Nat.sub_le _ _
  unfold Conn.used
  split_ifs
  · exact Nat.zero_le _
  · exact hdrop
  · exact Nat.zero_le _
  · exact hdrop

theorem used_of_more {io : Io} {n : Nat} {next : μ} (hle : n ≤ c.buffer.length) :
    c.used io 0 n next = { c with message := some next, buffer := c.buffer.drop n } := by
  have hgood : ¬ (0 : Int) < 0 := by decide
  have hbad : ¬ ((0 : Int) < 0 ∨ c.buffer.length < n) := by omega
  simp only [Conn.used, if_neg hbad, if_neg hgood]

theorem used_of_complete {io : Io} {ret : Int} {n : Nat} {next : μ} (hret : 0 < ret) (hle : n ≤ c.buffer.length) :
    c.used io ret n next = { c with
      state := .success, timeout := io.timeout, message := none
      handed := c.handed ++ [(c.sessions.length - 1, next)], buffer := c.buffer.drop n } := by
  have hbad : ¬ (ret < 0 ∨ c.buffer.length < n) := by omega
  simp only [Conn.used, if_neg hbad, if_pos hret]

theorem Place.more {n : Nat} {next : μ} (h : Place messageAppend replies r taken remaining c)
    (hbuffer : c.buffer.take n = remaining.take n) (hlt : n < remaining.length)
    (hnext : Framing.Frames messageAppend pollerBufsize (0 < ·) r.Done (remaining.drop n) next) :
    Place messageAppend replies r (taken ++ c.buffer.take n) (remaining.drop n)
      { c with message := some next, buffer := c.buffer.drop n } where
  received := by
    rw [List.append_assoc, List.take_append_drop]
    exact h.received
  reply := by
    rw [List.append_assoc, hbuffer, List.take_append_drop]
    exact h.reply
  nonempty := by
    rw [ne_eq, List.drop_eq_nil_iff]
    omega
  begins := fun hnone => by cases hnone
  frames := by
    intro msg hmsg
    obtain rfl := Option.some.inj hmsg
    exact hnext

theorem Place.complete {u : Conn μ} {r' : Reply μ} (h : Place messageAppend replies r taken remaining c)
    (hbuffer : c.buffer.take remaining.length = remaining) (hreceived : u.received = c.received)
    (hu : u.buffer = c.buffer.drop remaining.length) (hmessage : u.message = none)
    (hhanded : u.handed.length = c.handed.length + 1) (hr' : replies[u.handed.length]? = some r')
    (hne : r'.text ≠ []) : Place messageAppend replies r' (taken ++ remaining) r'.text u where
  received := by
    calc u.received
        = taken ++ (c.buffer.take remaining.length ++ c.buffer.drop remaining.length) := by
          rw [hreceived, h.received, List.take_append_drop]
      _ = taken ++ remaining ++ u.buffer := by rw [hbuffer, hu, List.append_assoc]
  reply := by
    rw [h.reply, ← hhanded]
    exact (texts_take_succ hr').symm
  nonempty := hne
  begins := fun _ => rfl
  frames := by
    intro msg hmsg
    rw [hmessage] at hmsg
    cases hmsg

theorem Inv.used {io : Io} {ret : Int} {n : Nat} {next : μ} (h : Inv messageAppend replies c) (ho : Orderly c)
    (hne : ∀ r ∈ replies, r.text ≠ []) (hframes : c.FramesReplies messageAppend replies)
    (hreceives : c.Receives replies) (hended : c.ended = none) (hbuffer : c.buffer ≠ []) (hholds : c.Holds msg)
    (hcall : messageAppend c.buffer msg = (ret, n, next)) : Inv messageAppend replies (c.used io ret n next) := by
  have hsmall := (length_buffer_used_le io ret n next c).trans h.small
  cases hr : replies[c.handed.length]? with
  | none => exact h.past (List.getElem?_eq_none_iff.mp hr) (prefix_handed_used io ret n next c) hsmall
  | some r =>
      obtain ⟨taken, remaining, hplace⟩ := h.place hended r hr
      obtain ⟨more, rest, halike⟩ := hplace.alike hreceives
      obtain ⟨ret', n', next', hcall', hpos, hle, hgo⟩ :=
        (hplace.frames_of_holds ho hframes hr hholds).consumes hbuffer h.small halike
      obtain ⟨rfl, rfl, rfl⟩ : ret = ret' ∧ n = n' ∧ next = next' := by
        have heq := hcall.symm.trans hcall'
        simpa only [Prod.mk.injEq] using heq
      obtain ⟨rfl, hlt, hnext⟩ | ⟨hret, rfl, hdone⟩ := hgo
      · rw [used_of_more hle] at hsmall ⊢
        refine ⟨h.done, hsmall, fun _ errno hend => ?_, fun _ r' hr' => ?_⟩
        · rw [hended] at hend
          cases hend
        · obtain rfl := Option.some.inj (hr.symm.trans hr')
          exact ⟨_, _, hplace.more (take_of_alike halike hle hlt.le) hlt hnext⟩
      · rw [used_of_complete hret hle] at hsmall ⊢
        refine ⟨?_, hsmall, fun _ errno hend => ?_, fun _ r' hr' => ?_⟩
        · intro i x r' hx hr'
          rw [List.getElem?_append] at hx
          split_ifs at hx with hi
          · exact h.done i x r' hx hr'
          · rw [List.getElem?_singleton] at hx
            split_ifs at hx with hzero
            obtain rfl := Option.some.inj hx
            obtain rfl : i = c.handed.length := by omega
            obtain rfl := Option.some.inj (hr.symm.trans hr')
            exact hdone
        · rw [hended] at hend
          cases hend
        · have hbytes := take_of_alike halike hle le_rfl
          rw [List.take_length] at hbytes
          have hlength : (c.handed ++ [(c.sessions.length - 1, next)]).length = c.handed.length + 1 := List.length_append
          have hmem := List.mem_of_getElem? hr'
          exact ⟨_, _, hplace.complete hbytes rfl rfl rfl hlength hr' (hne r' hmem)⟩

theorem Inv.of_eq {state : ConnState} {sessions : List (Option μ)} (h : Inv messageAppend replies c) :
    Inv messageAppend replies { c with state := state, sessions := sessions } := by
  refine ⟨h.done, h.small, h.accepted, fun hended r hr => ?_⟩
  obtain ⟨taken, remaining, hplace⟩ := h.place hended r hr
  exact ⟨taken, remaining, hplace.received, hplace.reply, hplace.nonempty, hplace.begins, hplace.frames⟩

theorem Inv.step (h : Inv messageAppend replies c) (ho : Orderly c) (hne : ∀ r ∈ replies, r.text ≠ [])
    (hframes : c.FramesReplies messageAppend replies) (hreceives : c.Receives replies)
    (hstep : c.step messageAppend input = some t) : Inv messageAppend replies t := by
  cases effect_of_step hstep with
  | send messageIn idle next =>
      obtain rfl := next
      exact h.of_eq
  | read bytes empty small next =>
      obtain rfl := next
      refine ⟨h.done, small, h.accepted, fun hended r hr => ?_⟩
      obtain ⟨taken, remaining, hplace⟩ := h.place hended r hr
      refine ⟨taken, remaining, ?_, hplace.reply, hplace.nonempty, hplace.begins, hplace.frames⟩
      rw [hplace.received, empty, List.append_nil]
  | stop e allowed next =>
      obtain rfl := next
      refine ⟨h.done, Nat.zero_le _, fun _ errno hrefused => ?_, fun hnone => ?_⟩
      · exact allowed errno (Option.some.inj hrefused)
      · cases hnone
  | use io msg ret n after running full holds call next =>
      obtain rfl := next
      exact h.used ho hne hframes hreceives running full holds call
  | pass state before after next =>
      obtain rfl := next
      exact h.of_eq

end

theorem step_grows (hstep : c.step messageAppend input = some t) :
    c.sessions <+: t.sessions ∧ c.received <+: t.received := by
  cases effect_of_step hstep with
  | send messageIn idle next =>
      obtain rfl := next
      exact ⟨List.prefix_append _ _, List.prefix_rfl⟩
  | read bytes empty small next =>
      obtain rfl := next
      exact ⟨List.prefix_rfl, List.prefix_append _ _⟩
  | stop e allowed next =>
      obtain rfl := next
      exact ⟨List.prefix_rfl, List.prefix_rfl⟩
  | use io msg ret n after running full holds call next =>
      obtain rfl := next
      unfold Conn.used
      split_ifs
      all_goals exact ⟨List.prefix_rfl, List.prefix_rfl⟩
  | pass state before after next =>
      obtain rfl := next
      exact ⟨List.prefix_rfl, List.prefix_rfl⟩

section

variable {replies : List (Reply μ)}

theorem Conn.FramesReplies.of_prefix (h : t.FramesReplies messageAppend replies) (hsessions : c.sessions <+: t.sessions) :
    c.FramesReplies messageAppend replies := by
  intro i msg r hmsg hr
  have hi := (List.getElem?_eq_some_iff.mp hmsg).1
  refine h i msg r ?_ hr
  rw [List.prefix_iff_getElem?.mp hsessions i hi, ← List.getElem?_eq_getElem hi]
  exact hmsg

theorem Conn.Receives.of_prefix (h : t.Receives replies) (hreceived : c.received <+: t.received) :
    c.Receives replies := by
  obtain ⟨more, rest, hwire⟩ := h
  obtain ⟨between, hbetween⟩ := hreceived
  refine ⟨between ++ more, rest, ?_⟩
  rw [← List.append_assoc, hbetween]
  exact hwire

/-- By induction on the run, with what is said of the sessions and of the bytes carried from its end to its start. -/
theorem inv_of_run (hne : ∀ r ∈ replies, r.text ≠ []) (h : (connecting μ).run messageAppend inputs = some c)
    (hframes : c.FramesReplies messageAppend replies) (hreceives : c.Receives replies) :
    Inv messageAppend replies c := by
  have hrun : Orderly c ∧ (c.FramesReplies messageAppend replies → c.Receives replies →
      Inv messageAppend replies c) := by
    refine Replay.replay_preserves (P := fun c => Orderly c ∧ (c.FramesReplies messageAppend replies →
      c.Receives replies → Inv messageAppend replies c)) (fun _ _ s t hs hstep => ?_) ⟨?_, fun _ _ => ?_⟩ h
    · obtain ⟨hsessions, hreceived⟩ := step_grows hstep
      refine ⟨hs.1.step hstep, fun hframes hreceives => ?_⟩
      have hframes := hframes.of_prefix hsessions
      have hreceives := hreceives.of_prefix hreceived
      exact (hs.2 hframes hreceives).step hs.1 hne hframes hreceives hstep
    · exact ⟨rfl, rfl, fun _ hnone => by cases hnone⟩
    · refine ⟨fun i x r hx => ?_, Nat.zero_le _, fun _ _ hrefused => ?_, fun _ r hr => ?_⟩
      · simp [connecting] at hx
      · cases hrefused
      · refine ⟨[], r.text, rfl, ?_, hne r (List.mem_of_getElem? hr), fun _ => rfl, fun _ hnone => ?_⟩
        · exact (texts_take_succ hr).symm
        · cases hnone
  exact hrun.2 hframes hreceives

theorem length_texts_take_le {k l : Nat} (h : k ≤ l) (replies : List (Reply μ)) :
    (texts (replies.take k)).length ≤ (texts (replies.take l)).length := by
  obtain ⟨behind, hbehind⟩ := List.take_prefix_take_left (l := replies) h
  rw [← hbehind, texts, texts, List.flatMap_append, List.length_append]
  exact Nat.le_add_right _ _

/-- Every reply that is handed over is the one for its session, none is withheld that has come as a whole, and no
message refuses the bytes of a reply. -/
theorem replies_of_run (hne : ∀ r ∈ replies, r.text ≠ []) (h : (connecting μ).run messageAppend inputs = some c)
    (hframes : c.FramesReplies messageAppend replies) (hreceives : c.Receives replies) :
    (∀ (i : Nat) (x : Nat × μ) (r : Reply μ), c.handed[i]? = some x → replies[i]? = some r → x.1 = i ∧ r.Done x.2)
      ∧ (c.ended = none → c.buffer = [] → ∀ k ≤ replies.length,
          (texts (replies.take k)).length ≤ c.received.length → k ≤ c.handed.length)
      ∧ (c.handed.length < replies.length → ∀ errno, c.ended ≠ some (.refused errno)) := by
  have hinv := inv_of_run hne h hframes hreceives
  have ho := orderly_of_run h
  refine ⟨fun i x r hx hr => ⟨?_, hinv.done i x r hx hr⟩, fun hended hbuffer k hk hle => ?_, hinv.accepted⟩
  · have hi := (List.getElem?_eq_some_iff.mp hx).1
    have hfirst : (c.handed.map Prod.fst)[i]? = some x.1 := by rw [List.getElem?_map, hx]; rfl
    rw [ho.order, List.getElem?_range hi] at hfirst
    exact (Option.some.inj hfirst).symm
  · by_contra hlt
    have hinside : c.handed.length < replies.length := by omega
    obtain ⟨taken, remaining, hplace⟩ := hinv.place hended _ (List.getElem?_eq_getElem hinside)
    have hreceived := congrArg List.length hplace.received
    have hreply := congrArg List.length hplace.reply
    have hremaining := List.length_pos_iff.mpr hplace.nonempty
    have hmono := length_texts_take_le (show c.handed.length + 1 ≤ k by omega) replies
    rw [hbuffer, List.append_nil] at hreceived
    rw [List.length_append] at hreply
    omega

end

end WorkflowModel.Kernel.ReadMessage
