import WorkflowModel.Http.Request
import WorkflowModel.Proof.HttpHeaderStore
import WorkflowModel.Proof.HttpPieces

/-!
# The answers to a request that is being read

In whatever pieces a request comes, its client is told to go on at most once, and only where a header asks for it
and the length of the body is within the limit. A client whose request is refused is told so at most once, last.
What is accepted is within the limit.
-/

namespace WorkflowModel.Http

open WorkflowModel Resume

def HeaderLine.expects (line : HeaderLine) : Bool :=
  strcaseEq line.name (bytesOf "Expect") && strcaseEq line.value (bytesOf "100-continue")

def HttpParser.asks (p : HttpParser) : Bool := p.headerList.any HeaderLine.expects

def Flagged (p : HttpParser) : Prop := p.expectContinue = p.asks

section Flagged

variable {p : HttpParser}

theorem appendBytes_eq (buf : Bytes) (p : HttpParser) : appendBytes buf p = p.withBuffers (appendBytes buf p) :=
  (sameScan_appendBytes p buf).1

/-- The header that `matchExpect` looks for is found by the length of its name. -/
theorem actOnHeader_expects (name value : Bytes) :
    (actOnHeader name value p).expectContinue
      = (p.expectContinue || (strcaseEq name (bytesOf "Expect") && strcaseEq value (bytesOf "100-continue"))) := by
  have hskip : name.length ≠ 6 → strcaseEq name (bytesOf "Expect") = false := by
    intro hne
    by_contra heq
    rw [Bool.not_eq_false] at heq
    exact hne ((length_eq_of_strcaseEq heq).trans (by decide))
  unfold actOnHeader
  split
  · have hexpect : (matchExpect name value p).expectContinue = (p.expectContinue
        || (strcaseEq name (bytesOf "Expect") && strcaseEq value (bytesOf "100-continue"))) := by
      unfold matchExpect
      split_ifs with hmatch
      · rw [hmatch, Bool.or_true]
      · rw [Bool.eq_false_of_not_eq_true hmatch, Bool.or_false]
    rw [← hexpect, matchConnection]
    split_ifs
    all_goals rfl
  · rw [hskip (by omega), Bool.false_and, Bool.or_false, matchConnection]
    split_ifs
    all_goals rfl
  · rw [hskip (by omega), Bool.false_and, Bool.or_false, matchContentLength]
    split_ifs
    all_goals rfl
  · rw [hskip (by omega), Bool.false_and, Bool.or_false, matchTransferEncoding]
    split_ifs
    all_goals rfl
  · rename_i hne _ _ _
    rw [hskip hne, Bool.false_and, Bool.or_false]

theorem Flagged.matchMessageHeader {name value : Bytes} (h : Flagged p) (hname : name.length < 2 ^ 31)
    (hvalue : value.length < 2 ^ 31) : Flagged (matchMessageHeader name value p) := by
  obtain ⟨hlist, -⟩ := actOnHeader_lengths (p := p) name value
  obtain ⟨line, hline, hlname, hlvalue⟩ := name_value_of_addHeader (p := actOnHeader name value p) hname hvalue
  have hexpects : line.expects
      = (strcaseEq name (bytesOf "Expect") && strcaseEq value (bytesOf "100-continue")) := by
    rw [HeaderLine.expects, hlname, hlvalue]
  rw [matchMessageHeader_eq, Flagged, HttpParser.asks, hline, hlist, List.any_append]
  calc (actOnHeader name value p).expectContinue
      = (p.expectContinue || line.expects) := by rw [actOnHeader_expects, hexpects]
    _ = (p.headerList.any HeaderLine.expects || line.expects) := by rw [h, HttpParser.asks]
    _ = (p.headerList.any HeaderLine.expects || [line].any HeaderLine.expects) := by simp

theorem Flagged.parseStartLine (h : Flagged p) (l : Bytes) : Flagged (parseStartLine l p).2 := by
  unfold Http.parseStartLine
  split
  · exact h
  · split
    · exact h
    · exact h
    · split
      · exact h
      · dsimp only
        split
        · exact h
        · exact h

theorem Flagged.parseHeaderStep (h : Flagged p) (l : Bytes) (hp : HeaderLive p) : Flagged (parseHeaderStep p l).2 := by
  cases hstate : p.headerState with
  | headerComplete => exact absurd hstate hp
  | startLine =>
      rw [parseHeaderStep_startLine l hstate]
      exact h.parseStartLine l
  | headerValue =>
      rw [parseHeaderStep_headerValue l hstate]
      obtain ⟨content, rest, hround, heq⟩ | ⟨-, heq⟩ | ⟨-, heq⟩ := parseHeaderValue_cases l p
      · obtain ⟨hname, hvalue⟩ := lengths_of_value (p := p) hround
        rw [heq]
        exact h.matchMessageHeader hname hvalue
      · rw [heq]
        exact h
      · rw [heq]
        exact h
  | headerName =>
      rw [parseHeaderStep_nameStep l (by simp [hstate]) (by simp [hstate])]
      obtain hcrlf | ⟨hcrlf, body, rest, rfl, hlt, hcolon, hnul⟩ | ⟨hcrlf, hcode⟩ | ⟨hcrlf, hcode⟩ :=
        nameInput_cases p.namebuf l
      · rw [nameStep_of_crlf hcrlf]
        exact h
      · obtain ⟨namebuf, -, heq⟩ := nameStep_of_name p hcrlf hlt hcolon hnul
        rw [heq]
        exact h
      · rw [nameStep_of_ne_one hstate hcrlf (by simp [hcode])]
        exact h
      · rw [nameStep_of_ne_one hstate hcrlf (by simp [hcode])]
        exact h

theorem Flagged.header_run {message : Bytes} (h : Flagged p) (hp : headerMachine.Ready HeaderLive message p) :
    Flagged (headerMachine.run message p).2 :=
  Machine.run_preserves headerMachine_resumable (fun _ l hq hlive => hq.parseHeaderStep l hlive) hp h

theorem Flagged.startBody (h : Flagged p) : Flagged (startBody p) := by
  unfold Http.startBody
  split_ifs
  all_goals exact h

theorem Flagged.bodyEnd (h : Flagged p) (hp : BodyReady p) : Flagged (bodyEnd p).2.2 := by
  obtain ⟨state, offset, hframe⟩ := bodyEnd_frame hp
  rw [hframe]
  exact h

theorem Flagged.callEnd (h : Flagged p) (hp : CallReady p) : Flagged (callEnd p).2.2 := by
  by_cases hlive : HeaderLive p
  · have hrun := h.header_run (hp.ready hlive)
    rcases header_run_cases (hp.ready hlive) with hmore | ⟨hstop, -⟩ | hbad
    · rw [callEnd_of_more hlive hmore]
      exact hrun
    · rw [callEnd_of_stop hlive hstop]
      exact hrun.startBody.bodyEnd (startBody_ready (header_run_inside hp hlive hstop))
    · rw [callEnd_of_bad hlive hbad]
      exact hrun
  · have hcomplete : p.headerState = .headerComplete := not_not.mp hlive
    rw [callEnd_of_body hcomplete]
    exact h.bodyEnd (hp.body hcomplete)

theorem Flagged.append {isResp zeroBody : Bool} (h : Flagged p) (hp : Between isResp zeroBody p) (buf : Bytes) :
    Flagged (httpParserAppendMessage buf p).2.2 := by
  have hbytes : Flagged (appendBytes buf p) := by
    rw [appendBytes_eq]
    exact h
  have hend := hbytes.callEnd (hp.appendBytes buf).ready
  rw [append_eq hp.incomplete, giveBack]
  split_ifs
  all_goals exact hend

end Flagged

/-- A call for a body changes nothing of what the header said. -/
structure KeepsHead (p q : HttpParser) : Prop where
  state : q.headerState = p.headerState
  offset : q.headerOffset = p.headerOffset
  list : q.headerList = p.headerList
  length : q.transferLength = p.transferLength
  flag : q.expectContinue = p.expectContinue

theorem keepsHead_append {isResp zeroBody : Bool} {p : HttpParser} (hp : Between isResp zeroBody p)
    (hcomplete : p.headerState = .headerComplete) (buf : Bytes) :
    KeepsHead p (httpParserAppendMessage buf p).2.2 := by
  have hstate : (appendBytes buf p).headerState = .headerComplete := by
    rw [appendBytes_eq]
    exact hcomplete
  obtain ⟨state, offset, hframe⟩ := bodyEnd_frame ((hp.appendBytes buf).ready.body hstate)
  have hend : KeepsHead p (callEnd (appendBytes buf p)).2.2 := by
    rw [callEnd_of_body hstate, hframe, appendBytes_eq]
    exact ⟨rfl, rfl, rfl, rfl, rfl⟩
  rw [append_eq hp.incomplete, giveBack]
  split_ifs
  all_goals exact ⟨hend.state, hend.offset, hend.list, hend.length, hend.flag⟩

theorem Between.unflagged {isResp zeroBody : Bool} {p : HttpParser} (h : Between isResp zeroBody p) :
    Between isResp zeroBody { p with expectContinue := false } where
  ready := ⟨h.ready.header, h.ready.body⟩
  lengths := by
    refine ⟨fun hlive => ?_, fun hcomplete => ?_⟩
    · have hlengths := h.lengths.1 hlive
      exact ⟨hlengths.content, hlengths.transfer, hlengths.fresh⟩
    · have hlengths := h.lengths.2 hcomplete
      exact ⟨hlengths.content, hlengths.transfer⟩
  incomplete := h.incomplete

def HttpRequest.holding (q : HttpParser) (req : HttpRequest) : HttpRequest :=
  { req with parser := q, curSize := q.msgsize }

theorem sizeAdd_sizeSub {total before : Nat} (htotal : total < sizeModulus) (hbefore : before < sizeModulus) :
    sizeAdd before (sizeSub total before) = total := by
  unfold sizeAdd sizeSub
  unfold sizeModulus at *
  omega

/-- The body ends within the limit, as far as its length is known. -/
def HttpParser.fits (limit : Nat) (p : HttpParser) : Prop :=
  p.transferLength = sizeMax ∨ sizeAdd p.headerOffset p.transferLength ≤ limit

/-- Between two calls the client has been told to go on exactly when a complete header asks for it. -/
structure Reading (limit : Nat) (req : HttpRequest) : Prop where
  between : Between false false req.parser
  counted : req.curSize = req.parser.msgsize
  within : req.curSize ≤ limit
  limited : req.sizeLimit = limit
  silent : HeaderLive req.parser → Flagged req.parser ∧ req.feedbacks = []
  told : req.parser.headerState = .headerComplete → req.parser.expectContinue = false
    ∧ (req.parser.asks = true → req.parser.fits limit)
    ∧ req.feedbacks = if req.parser.asks then [.resp100] else []

section OneCall

variable {limit : Nat} {req : HttpRequest} {buf : Bytes}

theorem reading_init (limit : Nat) (memory : HttpParser) : Reading limit (HttpRequest.init limit memory) where
  between := between_freshParser false false memory
  counted := rfl
  within := Nat.zero_le limit
  limited := rfl
  silent := fun _ => ⟨rfl, rfl⟩
  told := by
    intro hcomplete
    simp [HttpRequest.init, freshParser, httpParserInit] at hcomplete

/-- What the parser makes of a piece, and what is counted for it. -/
theorem appendMessage_cases (h : Reading limit req) (hsize : (req.parser.msgbuf ++ buf).length < 2 ^ 63) :
    ∃ q n, (httpParserAppendMessage buf req.parser).2.2 = q ∧
      ((req.appendMessage buf = (0, n, .other, req.holding q) ∧ Between false false q ∧ q.msgsize ≤ limit
          ∧ q.msgbuf = req.parser.msgbuf ++ buf)
        ∨ (req.appendMessage buf = (1, n, .other, req.holding q) ∧ q.msgsize ≤ limit)
        ∨ (req.appendMessage buf = (-1, n, .msgsize, req.holding q) ∧ limit < q.msgsize)
        ∨ req.appendMessage buf = (-1, n, .badmsg, { req with parser := q })) := by
  obtain rfl := h.limited
  have hbefore : req.parser.msgsize + buf.length < sizeModulus := by
    rw [List.length_append] at hsize
    unfold HttpParser.msgsize sizeModulus
    omega
  refine ⟨_, (httpParserAppendMessage buf req.parser).2.1, rfl, ?_⟩
  rcases callEnd_codes (h.between.appendBytes buf).ready with hcode | hcode | hcode
  · have hcall := append_of_zero h.between hcode
    have hbetween := (h.between.appendBytes buf).callEnd hcode
    have hmsg : (callEnd (appendBytes buf req.parser)).2.2.msgbuf = req.parser.msgbuf ++ buf := by
      rw [(callEnd_inside (h.between.appendBytes buf).ready).1, appendBytes_msgbuf]
    have hcount : sizeAdd req.curSize buf.length = (callEnd (appendBytes buf req.parser)).2.2.msgsize := by
      rw [h.counted, sizeAdd_of_lt hbefore, HttpParser.msgsize, HttpParser.msgsize, hmsg, List.length_append]
    rw [HttpRequest.appendMessage, hcall]
    dsimp only
    rw [if_pos (by decide), hcount]
    split_ifs with hover
    · exact .inr (.inr (.inl ⟨rfl, hover⟩))
    · exact .inl ⟨rfl, hbetween, not_lt.mp hover, hmsg⟩
  · have hone : (httpParserAppendMessage buf req.parser).1 = 1 := by rw [append_code buf h.between, hcode]
    obtain ⟨hle, hn⟩ := msgsize_of_one h.between buf hsize hone
    generalize hcall : httpParserAppendMessage buf req.parser = call at hone hle hn ⊢
    obtain ⟨code, n, q⟩ := call
    dsimp only at hone hle hn ⊢
    subst hone
    have hcount : sizeAdd req.curSize n = q.msgsize := by
      rw [h.counted, hn, sizeAdd_sizeSub (lt_of_le_of_lt hle hbefore) (by omega)]
    rw [HttpRequest.appendMessage, hcall]
    dsimp only
    rw [if_pos (by decide), hcount]
    split_ifs with hover
    · exact .inr (.inr (.inl ⟨rfl, hover⟩))
    · exact .inr (.inl ⟨rfl, not_lt.mp hover⟩)
  · have hcall := append_of_bad h.between hcode
    rw [HttpRequest.appendMessage, hcall]
    dsimp only
    rw [if_neg (by decide), if_pos rfl]
    exact .inr (.inr (.inr rfl))

/-- A call that asks for more leaves the flag and the answers as the headers want them. -/
theorem Reading.holding {q : HttpParser} (h : Reading limit req)
    (hq : (httpParserAppendMessage buf req.parser).2.2 = q) (hbetween : Between false false q)
    (hwithin : q.msgsize ≤ limit) (hflag : q.headerState = .headerComplete → q.expectContinue = false) :
    Reading limit (req.holding q) where
  between := hbetween
  counted := rfl
  within := hwithin
  limited := h.limited
  silent := by
    intro hlive
    have hlive' : HeaderLive req.parser := by
      intro hcomplete
      exact hlive (hq ▸ (keepsHead_append h.between hcomplete buf).state.trans hcomplete)
    exact ⟨hq ▸ (h.silent hlive').1.append h.between buf, (h.silent hlive').2⟩
  told := by
    intro hcomplete
    by_cases hlive : HeaderLive req.parser
    · have hflagged : Flagged q := hq ▸ (h.silent hlive).1.append h.between buf
      have hquiet : q.asks = false := hflagged.symm.trans (hflag hcomplete)
      refine ⟨hflag hcomplete, fun hasks => absurd hasks (by simp [HttpRequest.holding, hquiet]), ?_⟩
      change req.feedbacks = if q.asks then _ else _
      rw [hquiet]
      exact (h.silent hlive).2
    · obtain ⟨hfalse, hfits, hfeedbacks⟩ := h.told (not_not.mp hlive)
      have hkeeps := keepsHead_append h.between (not_not.mp hlive) buf
      rw [hq] at hkeeps
      have hasks : q.asks = req.parser.asks := by rw [HttpParser.asks, hkeeps.list, HttpParser.asks]
      refine ⟨hflag hcomplete, fun h => ?_, ?_⟩
      · change q.asks = true at h
        have := hfits (hasks ▸ h)
        simpa only [HttpParser.fits, HttpRequest.holding, hkeeps.length, hkeeps.offset] using this
      · change req.feedbacks = if q.asks then _ else _
        rw [hasks]
        exact hfeedbacks

/-- The client has been told nothing, or to go on with what it has announced in `q`. -/
def Invited (limit : Nat) (feedbacks : List Feedback) (q : HttpParser) : Prop :=
  feedbacks = [] ∨ (feedbacks = [.resp100] ∧ q.asks = true ∧ q.fits limit)

theorem Reading.invited (h : Reading limit req) : Invited limit req.feedbacks req.parser := by
  by_cases hlive : HeaderLive req.parser
  · exact .inl (h.silent hlive).2
  · obtain ⟨-, hfits, hfeedbacks⟩ := h.told (not_not.mp hlive)
    cases hasks : req.parser.asks with
    | false =>
        rw [hasks] at hfeedbacks
        exact .inl hfeedbacks
    | true =>
        rw [hasks] at hfeedbacks
        exact .inr ⟨hfeedbacks, hasks, hfits hasks⟩

theorem Reading.earlier (h : Reading limit req) (buf : Bytes) :
    Invited limit req.feedbacks (httpParserAppendMessage buf req.parser).2.2 := by
  by_cases hlive : HeaderLive req.parser
  · exact .inl (h.silent hlive).2
  · have hkeeps := keepsHead_append h.between (not_not.mp hlive) buf
    obtain hnone | ⟨hgoOn, hasks, hfits⟩ := h.invited
    · exact .inl hnone
    · refine .inr ⟨hgoOn, ?_, ?_⟩
      · rw [HttpParser.asks, hkeeps.list]
        exact hasks
      · rw [HttpParser.fits, hkeeps.length, hkeeps.offset]
        exact hfits

theorem Reading.first (h : Reading limit req) (hflag : (httpParserAppendMessage buf req.parser).2.2.expectContinue = true) :
    req.feedbacks = [] ∧ (httpParserAppendMessage buf req.parser).2.2.asks = true := by
  have hlive : HeaderLive req.parser := by
    intro hbefore
    have hkeeps := keepsHead_append h.between hbefore buf
    rw [hkeeps.flag, (h.told hbefore).1] at hflag
    exact absurd hflag (by decide)
  have hflagged := (h.silent hlive).1.append h.between buf
  exact ⟨(h.silent hlive).2, hflagged ▸ hflag⟩

end OneCall

/-- The answers to a request of which the pieces have been read, with the code of the last call. -/
structure Dialogue (limit : Nat) (pieces : List (Bytes × Int)) (code : Int) (req : HttpRequest) : Prop where
  waiting : code = 0 → req.feedbacks
    = if req.parser.headerState = .headerComplete ∧ req.parser.asks = true then [.resp100] else []
  accepted : 0 ≤ code → (req.feedbacks = [] ∨ req.feedbacks = [.resp100])
    ∧ req.curSize = req.parser.msgsize ∧ req.parser.msgsize ≤ limit
  refused : code < 0 →
    (req.feedbacks = [.resp100] ∧ ∃ piece ∈ pieces, piece.2 ≠ Feedback.resp100.text.length)
    ∨ ∃ refusal, refusal ≠ .resp100
      ∧ (req.feedbacks = [refusal] ∨ (refusal ≠ .resp417 ∧ req.feedbacks = [.resp100, refusal]))
  goOn : .resp100 ∈ req.feedbacks → req.parser.asks = true ∧ req.parser.fits limit
  tooLong : .resp417 ∈ req.feedbacks → req.parser.asks = true ∧ ¬ req.parser.fits limit
  tooLarge : .resp413 ∈ req.feedbacks → limit < req.curSize

section Dialogue

variable {limit : Nat} {req : HttpRequest} {buf : Bytes} {pieces : List (Bytes × Int)} {code : Int}

/-- What more pieces there are does not matter. -/
theorem Dialogue.mono (h : Dialogue limit pieces code req) {all : List (Bytes × Int)} (hall : pieces ⊆ all) :
    Dialogue limit all code req where
  waiting := h.waiting
  accepted := h.accepted
  refused := by
    intro hcode
    obtain ⟨hfeedbacks, short, hmem, hshort⟩ | hrefusal := h.refused hcode
    · exact .inl ⟨hfeedbacks, short, hall hmem, hshort⟩
    · exact .inr hrefusal
  goOn := h.goOn
  tooLong := h.tooLong
  tooLarge := h.tooLarge

/-- A call that accepts its piece. -/
theorem dialogue_of_accepted (hcode : 0 ≤ code) (hinvited : Invited limit req.feedbacks req.parser)
    (hcount : req.curSize = req.parser.msgsize) (hwithin : req.curSize ≤ limit)
    (hwaiting : code = 0 → req.feedbacks
      = if req.parser.headerState = .headerComplete ∧ req.parser.asks = true then [.resp100] else []) :
    Dialogue limit pieces code req where
  waiting := hwaiting
  accepted := fun _ => ⟨hinvited.imp_right And.left, hcount, hcount ▸ hwithin⟩
  refused := fun hneg => absurd hcode (not_le.mpr hneg)
  goOn := by
    intro hmem
    obtain hnone | ⟨-, hboth⟩ := hinvited
    · simp [hnone] at hmem
    · exact hboth
  tooLong := by
    intro hmem
    obtain hnone | ⟨hgoOn, -⟩ := hinvited
    · simp [hnone] at hmem
    · simp [hgoOn] at hmem
  tooLarge := by
    intro hmem
    obtain hnone | ⟨hgoOn, -⟩ := hinvited
    · simp [hnone] at hmem
    · simp [hgoOn] at hmem

/-- A call that refuses its piece, for what the parser says of it or for its size. -/
theorem dialogue_of_refusal {refusal : Feedback} (hcode : code < 0) (hinvited : Invited limit req.feedbacks req.parser)
    (hrefusal : refusal = .resp400 ∨ (refusal = .resp413 ∧ limit < req.curSize)) :
    Dialogue limit pieces code (req.feedback refusal) where
  waiting := fun hzero => absurd hzero hcode.ne
  accepted := fun hle => absurd hcode (not_lt.mpr hle)
  refused := by
    intro
    have hother : refusal ≠ .resp100 ∧ refusal ≠ .resp417 := by
      obtain rfl | ⟨rfl, -⟩ := hrefusal
      · exact ⟨by decide, by decide⟩
      · exact ⟨by decide, by decide⟩
    refine .inr ⟨refusal, hother.1, ?_⟩
    obtain hnone | ⟨hgoOn, -⟩ := hinvited
    · exact .inl (by rw [HttpRequest.feedback, hnone, List.nil_append])
    · exact .inr ⟨hother.2, by rw [HttpRequest.feedback, hgoOn, List.singleton_append]⟩
  goOn := by
    intro hmem
    obtain hbefore | hlast := List.mem_append.mp hmem
    · obtain hnone | ⟨-, hboth⟩ := hinvited
      · simp [hnone] at hbefore
      · exact hboth
    · obtain rfl | ⟨rfl, -⟩ := hrefusal
      · simp at hlast
      · simp at hlast
  tooLong := by
    intro hmem
    obtain hbefore | hlast := List.mem_append.mp hmem
    · obtain hnone | ⟨hgoOn, -⟩ := hinvited
      · simp [hnone] at hbefore
      · simp [hgoOn] at hbefore
    · obtain rfl | ⟨rfl, -⟩ := hrefusal
      · simp at hlast
      · simp at hlast
  tooLarge := by
    intro hmem
    obtain rfl | ⟨-, hlarge⟩ := hrefusal
    · obtain hbefore | hlast := List.mem_append.mp hmem
      · obtain hnone | ⟨hgoOn, -⟩ := hinvited
        · simp [hnone] at hbefore
        · simp [hgoOn] at hbefore
      · simp at hlast
    · exact hlarge

theorem Reading.dialogue (h : Reading limit req) (pieces : List (Bytes × Int)) : Dialogue limit pieces 0 req := by
  refine dialogue_of_accepted le_rfl h.invited h.counted h.within fun _ => ?_
  by_cases hlive : HeaderLive req.parser
  · rw [(h.silent hlive).2, if_neg fun hboth => hlive hboth.1]
  · obtain ⟨-, -, hfeedbacks⟩ := h.told (not_not.mp hlive)
    rw [hfeedbacks]
    simp [not_not.mp hlive]

/-- What a call does: it asks for more, or it has told the client all that it will. -/
def Called (limit : Nat) (piece : Bytes × Int) (message : Bytes) (code : Int) (req : HttpRequest) : Prop :=
  (code = 0 ∧ Reading limit req ∧ req.parser.msgbuf = message) ∨ (code ≠ 0 ∧ Dialogue limit [piece] code req)

/-- The call that completes the header of a request whose client waits. -/
theorem called_of_expect {q : HttpParser} {written : Int} (hbetween : Between false false q)
    (hcomplete : q.headerState = .headerComplete) (hasks : q.asks = true) (hcount : req.curSize = q.msgsize)
    (hwithin : req.curSize ≤ limit) (hlimit : req.sizeLimit = limit) (hfeedbacks : req.feedbacks = [])
    (hparser : req.parser = { q with expectContinue := false }) :
    Called limit (buf, written) q.msgbuf (req.handleExpectContinue written).1 (req.handleExpectContinue written).2 := by
  have hkeeps : req.parser.asks = true ∧ (req.parser.fits limit ↔ q.fits limit) := by
    rw [hparser]
    exact ⟨hasks, Iff.rfl⟩
  rw [HttpRequest.handleExpectContinue, hlimit]
  split_ifs with hlong hshort
  · dsimp only
    refine .inr ⟨by decide, ?_⟩
    have hunfit : ¬ req.parser.fits limit := fun h => h.elim hlong.1 (not_le.mpr hlong.2)
    have hmem : (req.feedback .resp417).feedbacks = [.resp417] := by rw [HttpRequest.feedback, hfeedbacks]; rfl
    exact {
      waiting := fun h => absurd h (by decide)
      accepted := fun h => absurd h (by decide)
      refused := fun _ => .inr ⟨.resp417, by decide, .inl hmem⟩
      goOn := fun h => absurd h (by simp [hmem])
      tooLong := fun _ => ⟨hkeeps.1, hunfit⟩
      tooLarge := fun h => absurd h (by simp [hmem]) }
  · dsimp only
    refine .inr ⟨by decide, ?_⟩
    have hfits : req.parser.fits limit := by
      by_contra hunfit
      rw [HttpParser.fits, not_or, not_le] at hunfit
      exact hlong hunfit
    have hmem : (req.feedback .resp100).feedbacks = [.resp100] := by rw [HttpRequest.feedback, hfeedbacks]; rfl
    exact {
      waiting := fun h => absurd h (by decide)
      accepted := fun h => absurd h (by decide)
      refused := fun _ => .inl ⟨hmem, _, List.mem_cons_self, hshort⟩
      goOn := fun _ => ⟨hkeeps.1, hfits⟩
      tooLong := fun h => absurd h (by simp [hmem])
      tooLarge := fun h => absurd h (by simp [hmem]) }
  · have hfits : req.parser.fits limit := by
      by_contra hunfit
      rw [HttpParser.fits, not_or, not_le] at hunfit
      exact hlong hunfit
    have hstate : req.parser.headerState = .headerComplete := by rw [hparser]; exact hcomplete
    refine .inl ⟨rfl, ?_, by rw [HttpRequest.feedback, hparser]⟩
    exact {
      between := by
        rw [HttpRequest.feedback, hparser]
        exact hbetween.unflagged
      counted := by
        rw [HttpRequest.feedback, hparser]
        exact hcount
      within := hwithin
      limited := hlimit
      silent := fun hlive => absurd hstate hlive
      told := by
        intro
        rw [HttpRequest.feedback, hfeedbacks, hkeeps.1]
        exact ⟨by rw [hparser], fun _ => hfits, rfl⟩ }

theorem Reading.append (h : Reading limit req) (written : Int)
    (hsize : (req.parser.msgbuf ++ buf).length < 2 ^ 63) :
    Called limit (buf, written) (req.parser.msgbuf ++ buf) (req.append written buf).1 (req.append written buf).2.2 := by
  obtain ⟨q, n, hq, hcall⟩ := appendMessage_cases h hsize
  have hearlier := h.earlier buf
  rw [hq] at hearlier
  obtain ⟨heq, hbetween, hwithin, hmsg⟩ | ⟨heq, hwithin⟩ | ⟨heq, hover⟩ | heq := hcall
  · rw [HttpRequest.append, heq]
    dsimp only
    rw [if_pos rfl]
    split_ifs with hexpect
    · have hflag : (httpParserAppendMessage buf req.parser).2.2.expectContinue = true := hq ▸ hexpect.1
      obtain ⟨hfeedbacks, hasks⟩ := h.first hflag
      rw [← hmsg]
      exact called_of_expect hbetween hexpect.2 (hq ▸ hasks) rfl hwithin h.limited hfeedbacks rfl
    · refine .inl ⟨rfl, h.holding hq hbetween hwithin fun hcomplete => ?_, hmsg⟩
      exact Bool.eq_false_of_not_eq_true fun hflag => hexpect ⟨hflag, hcomplete⟩
  · rw [HttpRequest.append, heq]
    dsimp only
    rw [if_neg (by decide), if_neg (by decide)]
    dsimp only
    exact .inr ⟨by decide, dialogue_of_accepted (by decide) hearlier rfl hwithin fun hzero => absurd hzero (by decide)⟩
  · rw [HttpRequest.append, heq]
    dsimp only
    rw [if_neg (by decide), if_pos (by decide)]
    dsimp only
    exact .inr ⟨by decide, dialogue_of_refusal (by decide) hearlier (.inr ⟨rfl, hover⟩)⟩
  · rw [HttpRequest.append, heq]
    dsimp only
    rw [if_neg (by decide), if_pos (by decide)]
    dsimp only
    exact .inr ⟨by decide, dialogue_of_refusal (by decide) hearlier (.inl rfl)⟩

theorem dialogue_of_reading (pieces : List (Bytes × Int)) : ∀ {req : HttpRequest}, Reading limit req →
    (req.parser.msgbuf ++ (pieces.map Prod.fst).flatten).length < 2 ^ 63 →
    Dialogue limit pieces (feedRequest pieces req).1 (feedRequest pieces req).2 := by
  induction pieces with
  | nil => exact fun h _ => h.dialogue []
  | cons piece pieces ih =>
      intro req h hsize
      obtain ⟨buf, written⟩ := piece
      rw [List.map_cons, List.flatten_cons, ← List.append_assoc] at hsize
      have hfirst : (req.parser.msgbuf ++ buf).length < 2 ^ 63 := by
        rw [List.length_append] at hsize
        exact lt_of_le_of_lt (Nat.le_add_right _ _) hsize
      rw [feedRequest]
      obtain ⟨hcode, hnext, hmsg⟩ | ⟨hcode, hdialogue⟩ := h.append written hfirst
      · dsimp only
        rw [if_pos hcode]
        exact (ih hnext (by rw [hmsg]; exact hsize)).mono (List.subset_cons_self _ _)
      · dsimp only
        rw [if_neg hcode]
        exact hdialogue.mono (List.cons_subset_cons _ (List.nil_subset _))

end Dialogue

/-- In whatever pieces a request comes, and whatever `write` does with the answers, the client is told to go on
only as its headers ask and the limit allows, and it is told once why it is refused. -/
theorem dialogue_of_feedRequest (limit : Nat) (memory : HttpParser) (pieces : List (Bytes × Int))
    (hsize : (pieces.map Prod.fst).flatten.length < 2 ^ 63) :
    Dialogue limit pieces (feedRequest pieces (HttpRequest.init limit memory)).1
      (feedRequest pieces (HttpRequest.init limit memory)).2 := by
  have hempty : (HttpRequest.init limit memory).parser.msgbuf = [] := rfl
  exact dialogue_of_reading pieces (reading_init limit memory) (by rw [hempty, List.nil_append]; exact hsize)

/-- The header ends in the second piece, and its client waits; the body that follows is too large. -/
def expectPieces : List (Bytes × Int) :=
  [(bytesOf "PUT /a HTTP/1.1\r\nExp", 0),
   (bytesOf "ect: 100-Continue\r\nTransfer-Encoding: chunked\r\n\r\n", 25), (bytesOf "5\r\nhello\r\n", 0)]

theorem dialogue_of_expectPieces :
    (feedRequest expectPieces (HttpRequest.init 70 zeroedParser)).2.feedbacks = [.resp100, .resp413]
      ∧ Dialogue 70 expectPieces (feedRequest expectPieces (HttpRequest.init 70 zeroedParser)).1
          (feedRequest expectPieces (HttpRequest.init 70 zeroedParser)).2 :=
  ⟨by decide +kernel, dialogue_of_feedRequest 70 zeroedParser expectPieces (by decide +kernel)⟩

end WorkflowModel.Http
