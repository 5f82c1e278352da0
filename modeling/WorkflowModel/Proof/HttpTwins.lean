import WorkflowModel.Proof.HttpFields

/-!
# Two parsers of one stream

What a parser is given besides the stream is the memory it was made in and whether it was told that
the message has no body. Neither changes how a header is read. When the header is complete the second
one may matter: then a parser that was told ends the message at once. Two parsers that agree in how
long the body is agree in everything from there on.
-/

namespace WorkflowModel.Http

open WorkflowModel Resume

/-- `parser` with what another one works on for the body, apart from the buffers. -/
def HttpParser.withRest (parser other : HttpParser) : HttpParser :=
  { parser with
    transferLength := other.transferLength
    chunkState := other.chunkState
    chunkOffset := other.chunkOffset
    complete := other.complete }

section WithRest

variable (p q : HttpParser) (l : Bytes)

theorem actOnHeader_withRest (name value : Bytes) :
    actOnHeader name value (p.withRest q) = (actOnHeader name value p).withRest q := by
  have hconnection : ∀ r : HttpParser, matchConnection name value (r.withRest q)
      = (matchConnection name value r).withRest q := by
    intro r
    unfold matchConnection
    split_ifs <;> rfl
  have hexpect : matchExpect name value (p.withRest q) = (matchExpect name value p).withRest q := by
    unfold matchExpect
    split_ifs <;> rfl
  unfold actOnHeader
  split
  · rw [hexpect, hconnection]
  · rw [hconnection]
  · unfold matchContentLength
    split_ifs <;> rfl
  · unfold matchTransferEncoding
    split_ifs <;> rfl
  · rfl

theorem parseStartLine_withRest : parseStartLine l (p.withRest q)
    = ((parseStartLine l p).1,
      (parseStartLine l p).2.withRest (parseStartLine l (p.withRest q)).2) := by
  have hresp : (p.withRest q).isResp = p.isResp := rfl
  unfold parseStartLine
  rw [hresp]
  split
  · rfl
  · split
    · rfl
    · rfl
    · split
      · rfl
      · cases p.isResp <;> rfl

theorem parseHeaderValue_withRest : parseHeaderValue l (p.withRest q)
    = ((parseHeaderValue l p).1,
      (parseHeaderValue l p).2.withRest (parseHeaderValue l (p.withRest q)).2) := by
  have hname : (p.withRest q).name = p.name := rfl
  unfold parseHeaderValue
  split
  · rw [hname, matchMessageHeader_eq, matchMessageHeader_eq, actOnHeader_withRest]
    rfl
  · rfl
  · rfl

theorem parseHeaderName_withRest : parseHeaderName l (p.withRest q)
    = ((parseHeaderName l p).1,
      (parseHeaderName l p).2.withRest (parseHeaderName l (p.withRest q)).2) := by
  have hbuffer : (p.withRest q).namebuf = p.namebuf := rfl
  unfold parseHeaderName
  rw [hbuffer]
  split
  · rfl
  · split <;> rfl

theorem parseHeaderStep_withRest : parseHeaderStep (p.withRest q) l
    = ((parseHeaderStep p l).1,
      (parseHeaderStep p l).2.withRest (parseHeaderStep (p.withRest q) l).2) := by
  have hstate : (p.withRest q).headerState = p.headerState := rfl
  unfold parseHeaderStep
  rw [hstate]
  split
  · rw [parseStartLine_withRest]
    rfl
  · rw [parseHeaderValue_withRest]
    rfl
  · have hdone : (parseHeaderName l (p.withRest q)).2.headerState
        = (parseHeaderName l p).2.headerState := by
      rw [parseHeaderName_withRest]
      rfl
    dsimp only
    rw [hdone]
    split_ifs
    · rw [parseHeaderName_withRest]
      rfl
    · rw [parseHeaderName_withRest]
      rfl

end WithRest

theorem sameHeader_withRest (p q : HttpParser) : SameHeader p (p.withRest q) := ⟨rfl, fun _ => rfl⟩

theorem SameHeader.sameScan {p q : HttpParser} (h : SameHeader p q) : SameScan (p.withRest q) q := by
  refine ⟨?_, h.2⟩
  conv_lhs => rw [h.1]
  rfl

theorem parseHeaderStep_sameHeader {p q : HttpParser} (l : Bytes) (hp : HeaderLive p)
    (h : SameHeader p q) : (parseHeaderStep p l).1 = (parseHeaderStep q l).1 ∧
      SameHeader (parseHeaderStep p l).2 (parseHeaderStep q l).2 := by
  obtain ⟨hverdict, hscan⟩ := parseHeaderStep_congr (p := p.withRest q) l hp h.sameScan
  rw [parseHeaderStep_withRest] at hverdict hscan
  exact ⟨hverdict, sameHeader_equivalence.trans (sameHeader_withRest _ _) hscan.sameHeader⟩

/-- The header loop is resumable up to what belongs to the body, too. -/
theorem headerMachine_resumable_header : headerMachine.Resumable HeaderLive SameHeader where
  equivalence := sameHeader_equivalence
  offset_eq := by
    rintro p q ⟨hq, -⟩
    rw [hq]
    rfl
  live_of_rel := fun h hp => by
    rw [HeaderLive, h.headerState_eq]
    exact hp
  congr := fun l hp h => parseHeaderStep_sameHeader l hp h
  stable := headerMachine_resumable.stable
  more := fun hp h => (headerMachine_resumable.more hp h).sameHeader
  live_again := headerMachine_resumable.live_again
  advance := headerMachine_resumable.advance

/-- Two parsers that have read the same header in the same bytes. -/
structure Alike (p q : HttpParser) : Prop where
  header : SameHeader p q
  message : p.msgbuf = q.msgbuf
  complete : p.complete = q.complete

/-- Once the header is complete, they agree in how the body ends, too. -/
structure Twins (p q : HttpParser) : Prop extends Alike p q where
  body : p.headerState = .headerComplete → p.transferLength = q.transferLength ∧
    (p.chunked = true → p.chunkState = q.chunkState ∧ p.chunkOffset = q.chunkOffset)

/-- Two ends of a scan, where only one that is no error can be gone on from. -/
structure TwinEnds (x y : Int × Nat × HttpParser) : Prop where
  code : x.1 = y.1
  total : x.1 = 1 → x.2.1 = y.2.1
  alike : Alike x.2.2 y.2.2
  twins : 0 ≤ x.1 → Twins x.2.2 y.2.2

def SaysNoBody (p : HttpParser) : Prop :=
  p.code.any hasNoBody = true ∨ (p.chunked = false ∧ p.contentLength = 0)

section Twins

variable {isResp zeroBody : Bool} {p q : HttpParser}

theorem SameHeader.headerOffset_eq (h : SameHeader p q) : q.headerOffset = p.headerOffset := by
  rw [h.1]
  rfl

theorem SameHeader.chunked_eq (h : SameHeader p q) : q.chunked = p.chunked := by
  rw [h.1]
  rfl

theorem SameHeader.code_eq (h : SameHeader p q) : q.code = p.code := by
  rw [h.1]
  rfl

theorem SameHeader.contentLength_eq (h : SameHeader p q) : q.contentLength = p.contentLength := by
  rw [h.1]
  rfl

theorem Same.twins (h : Same p q) : Twins p q where
  header := h.1.sameHeader
  message := h.2
  complete := by
    rw [h.1.1]
    rfl
  body := fun _ => by
    rw [h.1.1]
    exact ⟨rfl, fun _ => ⟨rfl, rfl⟩⟩

theorem Twins.same (h : Twins p q) (hcomplete : p.headerState = .headerComplete)
    (hchunked : p.chunked = true) : Same p q := by
  obtain ⟨hlength, hchunk⟩ := h.body hcomplete
  obtain ⟨hstate, hoffset⟩ := hchunk hchunked
  refine ⟨⟨?_, h.header.2⟩, h.message⟩
  conv_lhs => rw [h.header.1]
  unfold HttpParser.withBody HttpParser.withBuffers
  rw [← hlength, ← hstate, ← hoffset, ← h.complete]

theorem Twins.bodyEnd (h : Twins p q) (hcomplete : p.headerState = .headerComplete)
    (hp : BodyReady p) : TwinEnds (bodyEnd p) (bodyEnd q) := by
  obtain ⟨hlength, -⟩ := h.body hcomplete
  have hsize : q.msgsize = p.msgsize := by rw [HttpParser.msgsize, ← h.message]; rfl
  by_cases hknown : p.transferLength = sizeMax
  · cases hchunked : p.chunked with
    | false =>
        rw [bodyEnd_of_unknown hknown hchunked,
          bodyEnd_of_unknown (hlength.symm.trans hknown) (h.header.chunked_eq.trans hchunked)]
        exact ⟨rfl, fun _ => rfl, h.toAlike, fun _ => h⟩
    | true =>
        obtain ⟨hcode, htotal, hsame⟩ := bodyEnd_congr (h.same hcomplete hchunked) hp
        exact ⟨hcode, htotal, hsame.twins.toAlike, fun _ => hsame.twins⟩
  · rw [bodyEnd_of_length hknown, bodyEnd_of_length (by rw [← hlength]; exact hknown), hsize,
      h.header.headerOffset_eq, ← hlength]
    exact ⟨rfl, fun _ => rfl, h.toAlike, fun _ => h⟩

/-- The lengths of the body are the same when none was withheld, or when there is none. -/
theorem Alike.startBody (h : Alike p q) (hcomplete : p.headerState = .headerComplete)
    (hp : HeaderLengths isResp zeroBody p) (hq : HeaderLengths isResp false q)
    (hbody : zeroBody = true → SaysNoBody p) : Twins (Http.startBody p) (Http.startBody q) := by
  have hcomplete' : q.headerState = .headerComplete := h.header.headerState_eq.trans hcomplete
  have hboth : SameHeader (Http.startBody p) (Http.startBody q) :=
    sameHeader_equivalence.trans (sameHeader_equivalence.symm (sameHeader_startBody hcomplete))
      (sameHeader_equivalence.trans h.header (sameHeader_startBody hcomplete'))
  refine ⟨⟨hboth, ?_, ?_⟩, fun _ => ⟨?_, fun hchunked => ?_⟩⟩
  · rw [startBody_msgbuf, startBody_msgbuf, h.message]
  · unfold Http.startBody
    split_ifs <;> exact h.complete
  · rw [(startBody_lengths hp).transfer, (startBody_lengths hq).transfer, HttpParser.bodiless,
      HttpParser.bodiless, hboth.code_eq, hboth.chunked_eq, hboth.contentLength_eq, Bool.false_or]
    cases zeroBody with
    | false => rw [Bool.false_or]
    | true =>
        have hfields : (Http.startBody p).code = p.code ∧ (Http.startBody p).chunked = p.chunked ∧
            (Http.startBody p).contentLength = p.contentLength := by
          have hsame := sameHeader_startBody hcomplete
          exact ⟨hsame.code_eq, hsame.chunked_eq, hsame.contentLength_eq⟩
        rw [hfields.1, hfields.2.1, hfields.2.2, Bool.true_or, if_pos rfl]
        rcases hbody rfl with hcode | ⟨hchunked, hlength⟩
        · rw [if_pos hcode]
        · rw [hchunked, hlength]
          simp
  · have hoffset := h.header.headerOffset_eq
    have hsame := h.header.chunked_eq
    rw [(sameHeader_startBody hcomplete).chunked_eq] at hchunked
    unfold Http.startBody
    rw [hsame, hchunked, if_pos rfl, if_pos rfl]
    exact ⟨rfl, hoffset.symm⟩

theorem Twins.appendBytes (h : Twins p q) (buf : Bytes) :
    Twins (appendBytes buf p) (appendBytes buf q) := by
  have hp := sameScan_appendBytes p buf
  have hq := sameScan_appendBytes q buf
  refine ⟨⟨?_, ?_, ?_⟩, fun hcomplete => ?_⟩
  · exact sameHeader_equivalence.trans (sameHeader_equivalence.symm hp.sameHeader)
      (sameHeader_equivalence.trans h.header hq.sameHeader)
  · rw [appendBytes_msgbuf, appendBytes_msgbuf, h.message]
  · rw [hp.1, hq.1]
    exact h.complete
  · rw [hp.1] at hcomplete ⊢
    rw [hq.1]
    exact h.body hcomplete

theorem Twins.callEnd (h : Twins p q) (hp : CallReady p) (hq : CallReady q)
    (hplengths : CallLengths isResp zeroBody p) (hqlengths : CallLengths isResp false q)
    (hbody : zeroBody = true → HeaderLive p → (headerMachine.run p.msgbuf p).1 = .stop 1 →
      SaysNoBody (headerMachine.run p.msgbuf p).2) : TwinEnds (callEnd p) (callEnd q) := by
  by_cases hlive : HeaderLive p
  · have hlive' : HeaderLive q := headerMachine_resumable_header.live_of_rel h.header hlive
    have hready := hp.ready hlive
    have hready' := hq.ready hlive'
    obtain ⟨hmsg, hflag, -⟩ := header_run_frame hready
    obtain ⟨hmsg', hflag', -⟩ := header_run_frame hready'
    have hrun := Machine.run_congr headerMachine_resumable_header h.header hready
    rw [h.message] at hrun
    have hverdict : (headerMachine.run p.msgbuf p).1 = (headerMachine.run q.msgbuf q).1 := by
      rw [h.message]
      exact hrun.1
    have halike : Alike (headerMachine.run p.msgbuf p).2 (headerMachine.run q.msgbuf q).2 := by
      refine ⟨?_, hmsg.trans (h.message.trans hmsg'.symm), hflag.trans (h.complete.trans hflag'.symm)⟩
      rw [h.message]
      exact hrun.2
    rcases header_run_cases hready with hmore | ⟨hstop, hcomplete⟩ | hbad
    · have hnext := Machine.ready_run_of_more headerMachine_resumable hready hmore
      rw [callEnd_of_more hlive hmore, callEnd_of_more hlive' (hverdict.symm.trans hmore)]
      exact ⟨rfl, fun _ => rfl, halike, fun _ => ⟨halike, fun hdone => absurd hdone hnext.1⟩⟩
    · have hlengths := header_run_lengths hready (hplengths.1 hlive)
      have hlengths' := header_run_lengths hready' (hqlengths.1 hlive')
      have htwins := halike.startBody hcomplete hlengths hlengths' fun hzero => hbody hzero hlive hstop
      rw [callEnd_of_stop hlive hstop, callEnd_of_stop hlive' (hverdict.symm.trans hstop)]
      exact htwins.bodyEnd (startBody_headerState.trans hcomplete)
        (startBody_ready (header_run_inside hp hlive hstop))
    · rw [callEnd_of_bad hlive hbad, callEnd_of_bad hlive' (hverdict.symm.trans hbad)]
      exact ⟨rfl, fun _ => rfl, halike, fun hcode => by simp at hcode⟩
  · have hcomplete : p.headerState = .headerComplete := not_not.mp hlive
    rw [callEnd_of_body hcomplete, callEnd_of_body (h.header.headerState_eq.trans hcomplete)]
    exact h.bodyEnd hcomplete (hp.body hcomplete)

theorem sameHeader_endAt (p : HttpParser) (total : Nat) : SameHeader (p.endAt total) p :=
  ⟨rfl, fun _ => rfl⟩

theorem Twins.endAt (h : Twins p q) (total : Nat) : Twins (p.endAt total) (q.endAt total) where
  header := sameHeader_equivalence.trans (sameHeader_endAt p total)
    (sameHeader_equivalence.trans h.header (sameHeader_equivalence.symm (sameHeader_endAt q total)))
  message := congrArg (List.take total) h.message
  complete := rfl
  body := h.body

/-- One call on both. -/
theorem Twins.append (buf : Bytes) (h : Twins p q) (hp : Between isResp zeroBody p)
    (hq : Between isResp false q)
    (hbody : zeroBody = true → HeaderLive (Http.appendBytes buf p) →
      (headerMachine.run (p.msgbuf ++ buf) (Http.appendBytes buf p)).1 = .stop 1 →
      SaysNoBody (headerMachine.run (p.msgbuf ++ buf) (Http.appendBytes buf p)).2) :
    (httpParserAppendMessage buf p).1 = (httpParserAppendMessage buf q).1 ∧
      (httpParserAppendMessage buf p).2.1 = (httpParserAppendMessage buf q).2.1 ∧
      Alike (httpParserAppendMessage buf p).2.2 (httpParserAppendMessage buf q).2.2 ∧
      (0 ≤ (httpParserAppendMessage buf p).1 →
        Twins (httpParserAppendMessage buf p).2.2 (httpParserAppendMessage buf q).2.2) := by
  have hready := (hp.appendBytes buf).ready
  have hend := (h.appendBytes buf).callEnd hready (hq.appendBytes buf).ready
    (hp.appendBytes buf).lengths (hq.appendBytes buf).lengths hbody
  rw [append_eq hp.incomplete, append_eq hq.incomplete, giveBack, giveBack, ← hend.code]
  split_ifs with hcode
  · exact ⟨rfl, rfl, hend.alike, hend.twins⟩
  · have hone : (Http.callEnd (Http.appendBytes buf p)).1 = 1 := by
      rcases callEnd_codes hready with h' | h' | h'
      · rw [h'] at hcode
        exact absurd (le_refl _) hcode
      · exact h'
      · rw [h'] at hcode
        exact absurd (by decide) hcode
    have htotal := hend.total hone
    have htwins := hend.twins (by rw [hone]; decide)
    have hended := htwins.endAt (Http.callEnd (Http.appendBytes buf p)).2.1
    rw [← htotal]
    refine ⟨rfl, ?_, hended.toAlike, fun _ => hended⟩
    dsimp only [endMessage]
    rw [HttpParser.msgsize, HttpParser.msgsize, htwins.message]

end Twins

end WorkflowModel.Http
