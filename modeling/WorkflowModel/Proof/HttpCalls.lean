import WorkflowModel.Proof.HttpLength

/-!
# The calls of `http_parser_append_message` one after the other

The invariant between two calls is that the scanners can be taken up again and that the lengths come
from the headers seen so far. With it, a call on `f ++ t` agrees with a call on `f` followed by a call
on `t`, and a message agrees with any cut of it into fragments.
-/

namespace WorkflowModel.Http

open WorkflowModel Resume

section CallEnd

variable {p : HttpParser}

theorem callEnd_complete (hp : CallReady p) : (callEnd p).2.2.complete = p.complete := by
  by_cases hlive : HeaderLive p
  · have hrun := (header_run_frame (hp.ready hlive)).2.1
    rcases header_run_cases (hp.ready hlive) with hmore | ⟨hstop, -⟩ | hbad
    · rw [callEnd_of_more hlive hmore]
      exact hrun
    · obtain ⟨state, offset, hframe⟩ :=
        bodyEnd_frame (startBody_ready (header_run_inside hp hlive hstop))
      have hstart : ∀ q : HttpParser, (startBody q).complete = q.complete := by
        intro q
        unfold startBody
        split_ifs <;> rfl
      rw [callEnd_of_stop hlive hstop, hframe]
      exact (hstart _).trans hrun
    · rw [callEnd_of_bad hlive hbad]
      exact hrun
  · have hcomplete : p.headerState = .headerComplete := not_not.mp hlive
    obtain ⟨state, offset, hframe⟩ := bodyEnd_frame (hp.body hcomplete)
    rw [callEnd_of_body hcomplete, hframe]

/-- The message ends inside the buffer, which the scan does not touch. -/
theorem callEnd_inside (hp : CallReady p) : (callEnd p).2.2.msgbuf = p.msgbuf ∧
    ((callEnd p).1 = 1 → (callEnd p).2.1 ≤ p.msgsize) := by
  by_cases hlive : HeaderLive p
  · have hmsg := header_run_msgbuf (hp.ready hlive)
    rcases header_run_cases (hp.ready hlive) with hmore | ⟨hstop, -⟩ | hbad
    · rw [callEnd_of_more hlive hmore]
      exact ⟨hmsg, by simp⟩
    · have hbody := bodyEnd_inside (startBody_ready (header_run_inside hp hlive hstop))
      rw [HttpParser.msgsize, startBody_msgbuf, hmsg] at hbody
      rw [callEnd_of_stop hlive hstop]
      exact hbody
    · rw [callEnd_of_bad hlive hbad]
      exact ⟨hmsg, by simp⟩
  · have hcomplete : p.headerState = .headerComplete := not_not.mp hlive
    rw [callEnd_of_body hcomplete]
    exact bodyEnd_inside (hp.body hcomplete)

theorem callEnd_codes (hp : CallReady p) :
    (callEnd p).1 = 0 ∨ (callEnd p).1 = 1 ∨ (callEnd p).1 = -2 := by
  have hbodyCodes : ∀ {q : HttpParser}, BodyReady q →
      (bodyEnd q).1 = 0 ∨ (bodyEnd q).1 = 1 ∨ (bodyEnd q).1 = -2 := by
    intro q hq
    by_cases hlength : q.transferLength = sizeMax
    · cases hchunked : q.chunked with
      | false => simp [bodyEnd_of_unknown hlength hchunked]
      | true =>
          have hready := hq hlength hchunked
          rw [bodyEnd_of_chunked hlength hchunked hready.1]
          rcases chunk_run_cases hready with hrun | hrun | hrun <;> simp [hrun, retOf]
    · rw [bodyEnd_of_length hlength]
      dsimp only
      split_ifs <;> simp
  by_cases hlive : HeaderLive p
  · rcases header_run_cases (hp.ready hlive) with hmore | ⟨hstop, -⟩ | hbad
    · simp [callEnd_of_more hlive hmore]
    · rw [callEnd_of_stop hlive hstop]
      exact hbodyCodes (startBody_ready (header_run_inside hp hlive hstop))
    · simp [callEnd_of_bad hlive hbad]
  · have hcomplete : p.headerState = .headerComplete := not_not.mp hlive
    rw [callEnd_of_body hcomplete]
    exact hbodyCodes (hp.body hcomplete)

def SmallLength (p : HttpParser) : Prop := p.transferLength = sizeMax ∨ p.transferLength ≤ intMax

/-- A message whose header has just become complete ends behind the header. -/
theorem headerOffset_le_bodyEnd (hoffset : p.headerOffset ≤ p.msgsize) (hsize : p.msgsize < 2 ^ 63)
    (hlength : SmallLength (startBody p)) (h : (bodyEnd (startBody p)).1 = 1) :
    p.headerOffset ≤ (bodyEnd (startBody p)).2.1 := by
  by_cases hknown : (startBody p).transferLength = sizeMax
  · cases hchunked : (startBody p).chunked with
    | false => simp [bodyEnd_of_unknown hknown hchunked] at h
    | true =>
        have hready := startBody_ready hoffset hknown hchunked
        rw [bodyEnd_of_chunked hknown hchunked hready.1] at h ⊢
        have hstop := (chunk_run_of_retOf hready).2 h
        have hforward := (Machine.offset_run_of_stop chunkMachine_resumable chunkMachine_reaches
          hready hstop).1
        have hstart : (startBody p).chunkOffset = p.headerOffset := by
          unfold startBody at hchunked ⊢
          split_ifs at hchunked ⊢ with hc <;> first | rfl | exact absurd hchunked hc
        rw [← hstart]
        exact hforward
  · have hsmall : (startBody p).transferLength ≤ intMax := hlength.resolve_left hknown
    rw [bodyEnd_of_length hknown, startBody_headerOffset]
    simp only [sizeAdd, sizeModulus, intMax] at hsmall ⊢
    omega

/-- A call that completes the message does not cut it inside the bytes of the calls before. -/
theorem length_le_callEnd (hp : CallReady p) (tail : Bytes) (h : (callEnd p).1 = 0)
    (hsize : (p.msgbuf ++ tail).length < 2 ^ 63)
    (hlength : SmallLength (callEnd ((callEnd p).2.2.withMessage (p.msgbuf ++ tail))).2.2)
    (hdone : (callEnd ((callEnd p).2.2.withMessage (p.msgbuf ++ tail))).1 = 1) :
    p.msgsize ≤ (callEnd ((callEnd p).2.2.withMessage (p.msgbuf ++ tail))).2.1 := by
  by_cases hlive : HeaderLive p
  · have hready := hp.ready hlive
    rcases header_run_cases hready with hrun | ⟨hrun, hcomplete⟩ | hrun
    · have hnext := Machine.ready_run_of_more headerMachine_resumable hready hrun
      have hreach := Machine.length_le_offset_run headerMachine_resumable headerMachine_reaches tail
        hready hrun
      rw [callEnd_of_more hlive hrun] at hlength hdone ⊢
      generalize (headerMachine.run p.msgbuf p).2 = q at hnext hreach hlength hdone ⊢
      have hqready : CallReady (q.withMessage (p.msgbuf ++ tail)) :=
        ⟨(hnext.append tail).2, fun hdone => absurd hdone hnext.1⟩
      have hqlive : HeaderLive (q.withMessage (p.msgbuf ++ tail)) := hnext.1
      have hbuffers := Machine.run_congr headerMachine_resumable
        (sameScan_withMessage q (p.msgbuf ++ tail)) (hnext.append tail)
      rcases header_run_cases (hqready.ready hqlive) with hmore | ⟨hstop, -⟩ | hbad
      · simp [callEnd_of_more hqlive hmore] at hdone
      · -- the header became complete in the second call
        have hinside := header_run_inside hqready hqlive hstop
        have hmsg := header_run_msgbuf (hqready.ready hqlive)
        rw [callEnd_of_stop hqlive hstop] at hlength hdone ⊢
        obtain ⟨state, offset, hframe⟩ := bodyEnd_frame (startBody_ready hinside)
        rw [hframe] at hlength
        have hsize' : (headerMachine.run (q.withMessage (p.msgbuf ++ tail)).msgbuf
            (q.withMessage (p.msgbuf ++ tail))).2.msgsize < 2 ^ 63 := by
          rw [HttpParser.msgsize, hmsg]
          exact hsize
        have hend := headerOffset_le_bodyEnd hinside hsize' hlength hdone
        have hfirst := hreach (hbuffers.1.trans hstop)
        rw [headerMachine_resumable.offset_eq hbuffers.2] at hfirst
        exact hfirst.trans hend
      · simp [callEnd_of_bad hqlive hbad] at hdone
    · have hbodyReady := startBody_ready (header_run_inside hp hlive hrun)
      have hmsg : (startBody (headerMachine.run p.msgbuf p).2).msgbuf = p.msgbuf :=
        startBody_msgbuf.trans (header_run_msgbuf hready)
      have hstate := (bodyEnd_headerState hbodyReady).trans (startBody_headerState.trans hcomplete)
      rw [callEnd_of_stop hlive hrun] at h hdone ⊢
      rw [callEnd_withMessage_of_body _ hstate] at hdone ⊢
      have hbody := length_le_bodyEnd hbodyReady tail h
      rw [HttpParser.msgsize, hmsg] at hbody
      exact hbody hdone
    · simp [callEnd_of_bad hlive hrun] at h
  · have hcomplete : p.headerState = .headerComplete := not_not.mp hlive
    have hstate := (bodyEnd_headerState (hp.body hcomplete)).trans hcomplete
    rw [callEnd_of_body hcomplete] at h hdone ⊢
    rw [callEnd_withMessage_of_body _ hstate] at hdone ⊢
    exact length_le_bodyEnd (hp.body hcomplete) tail h hdone

theorem callEnd_headerComplete (hp : CallReady p) (h : (callEnd p).1 = 1) :
    (callEnd p).2.2.headerState = .headerComplete := by
  by_cases hlive : HeaderLive p
  · rcases header_run_cases (hp.ready hlive) with hmore | ⟨hstop, hcomplete⟩ | hbad
    · simp [callEnd_of_more hlive hmore] at h
    · rw [callEnd_of_stop hlive hstop]
      exact (bodyEnd_headerState (startBody_ready (header_run_inside hp hlive hstop))).trans
        (startBody_headerState.trans hcomplete)
    · simp [callEnd_of_bad hlive hbad] at h
  · have hcomplete : p.headerState = .headerComplete := not_not.mp hlive
    rw [callEnd_of_body hcomplete]
    exact (bodyEnd_headerState (hp.body hcomplete)).trans hcomplete

end CallEnd

structure Between (isResp zeroBody : Bool) (p : HttpParser) : Prop where
  ready : CallReady p
  lengths : CallLengths isResp zeroBody p
  incomplete : p.complete = false

section Between

variable {isResp zeroBody : Bool} {p q : HttpParser}

theorem between_freshParser (isResp zeroBody : Bool) (memory : HttpParser) :
    Between isResp zeroBody (freshParser isResp zeroBody memory) := by
  unfold freshParser parseZeroBody httpParserInit
  cases zeroBody with
  | false =>
      exact ⟨⟨by simp, by simp⟩, ⟨fun _ => ⟨rfl, rfl, fun _ => rfl⟩, by simp⟩, rfl⟩
  | true =>
      exact ⟨⟨by simp, by simp⟩, ⟨fun _ => ⟨rfl, rfl, fun _ => rfl⟩, by simp⟩, rfl⟩

theorem CallLengths.of_sameScan (h : CallLengths isResp zeroBody p) (hsame : SameScan p q) :
    CallLengths isResp zeroBody q := by
  rw [hsame.1]
  refine ⟨fun hlive => ?_, fun hcomplete => ?_⟩
  · have hp := h.1 hlive
    exact ⟨hp.content, hp.transfer, hp.fresh⟩
  · have hp := h.2 hcomplete
    exact ⟨hp.content, hp.transfer⟩

theorem same_appendBytes (p : HttpParser) (buf : Bytes) :
    Same (p.withMessage (p.msgbuf ++ buf)) (appendBytes buf p) :=
  ⟨sameScan_equivalence.trans (sameScan_equivalence.symm (sameScan_withMessage p _))
    (sameScan_appendBytes p buf), rfl⟩

theorem same_appendBytes_append (p : HttpParser) (buf tail : Bytes) :
    Same ((appendBytes buf p).withMessage ((appendBytes buf p).msgbuf ++ tail))
      (appendBytes (buf ++ tail) p) := by
  refine ⟨?_, by simp [appendBytes, HttpParser.withMessage]⟩
  exact sameScan_equivalence.trans (sameScan_equivalence.symm (sameScan_withMessage _ _))
    (sameScan_equivalence.trans (sameScan_equivalence.symm (sameScan_appendBytes p buf))
      (sameScan_appendBytes p (buf ++ tail)))

theorem Between.appendBytes (hp : Between isResp zeroBody p) (buf : Bytes) :
    Between isResp zeroBody (appendBytes buf p) where
  ready := (hp.ready.withMessage_append buf).of_same (same_appendBytes p buf)
  lengths := hp.lengths.of_sameScan (sameScan_appendBytes p buf)
  incomplete := by
    rw [(sameScan_appendBytes p buf).1]
    exact hp.incomplete

theorem Between.callEnd (hp : Between isResp zeroBody p) (h : (callEnd p).1 = 0) :
    Between isResp zeroBody (callEnd p).2.2 where
  ready := (callEnd_append_of_zero hp.ready [] h).1
  lengths := callEnd_lengths hp.ready hp.lengths (by rw [h])
  incomplete := (callEnd_complete hp.ready).trans hp.incomplete

theorem smallLength_of_bounded (h : BodyLengths isResp zeroBody p) (hb : ContentLengthsBounded p) :
    SmallLength p := by
  have hcontent : p.contentLength = sizeMax ∨ p.contentLength ≤ intMax := by
    rw [h.content]
    apply contentLengthAfter_bounded _ hb
    cases isResp <;> simp
  rw [SmallLength, h.transfer]
  split_ifs
  · exact Or.inr (Nat.zero_le _)
  · exact Or.inl rfl
  · exact hcontent

end Between

theorem sizeSub_giveBack {before n total : Nat} (htotal : total ≤ before + n)
    (hsize : before + n < sizeModulus) :
    sizeSub n (sizeSub (before + n) total) = sizeSub total before := by
  rw [sizeSub_of_le htotal hsize]
  unfold sizeSub
  unfold sizeModulus at *
  omega

def HttpParser.endAt (p : HttpParser) (total : Nat) : HttpParser :=
  { p with msgbuf := p.msgbuf.take total, complete := true }

section OneCall

variable {isResp zeroBody : Bool} {p : HttpParser} {buf : Bytes}

theorem append_of_zero (hp : Between isResp zeroBody p) (h : (callEnd (appendBytes buf p)).1 = 0) :
    httpParserAppendMessage buf p = (0, buf.length, (callEnd (appendBytes buf p)).2.2) := by
  rw [append_eq hp.incomplete, giveBack, if_pos (by rw [h]), h]

theorem append_of_bad (hp : Between isResp zeroBody p)
    (h : (callEnd (appendBytes buf p)).1 = -2) :
    httpParserAppendMessage buf p = (-2, buf.length, (callEnd (appendBytes buf p)).2.2) := by
  rw [append_eq hp.incomplete, giveBack, if_pos (by rw [h]; decide), h]

theorem append_of_one (hp : Between isResp zeroBody p) (h : (callEnd (appendBytes buf p)).1 = 1)
    (hsize : (p.msgbuf ++ buf).length < 2 ^ 63) :
    httpParserAppendMessage buf p = (1, sizeSub (callEnd (appendBytes buf p)).2.1 p.msgsize,
      (callEnd (appendBytes buf p)).2.2.endAt (callEnd (appendBytes buf p)).2.1) := by
  obtain ⟨hmsg, hle⟩ := callEnd_inside (hp.appendBytes buf).ready
  have htotal := hle h
  have hcount : (appendBytes buf p).msgsize = p.msgsize + buf.length := by
    simp [HttpParser.msgsize, appendBytes]
  rw [List.length_append] at hsize
  rw [append_eq hp.incomplete, giveBack, if_neg (by rw [h]; decide), endMessage]
  refine Prod.ext rfl (Prod.ext ?_ rfl)
  dsimp only
  rw [HttpParser.msgsize, hmsg, ← HttpParser.msgsize, hcount]
  apply sizeSub_giveBack
  · rw [← hcount]
    exact htotal
  · change p.msgbuf.length + _ < _
    unfold sizeModulus
    omega

theorem append_code (buf : Bytes) (hp : Between isResp zeroBody p) :
    (httpParserAppendMessage buf p).1 = (callEnd (appendBytes buf p)).1 := by
  rw [append_eq hp.incomplete, giveBack]
  rcases callEnd_codes (hp.appendBytes buf).ready with h | h | h
  · rw [if_pos (by rw [h])]
  · rw [if_neg (by rw [h]; decide), h]
    rfl
  · rw [if_pos (by rw [h]; decide)]

end OneCall

/-- Two calls that a caller cannot tell apart. After an error only the code is compared. -/
def SameCall (x y : Int × Nat × HttpParser) : Prop :=
  x.1 = y.1 ∧ (x.1 = 0 ∨ x.1 = 1 → x.2.1 = y.2.1 ∧ Same x.2.2 y.2.2)

theorem Same.endAt {p q : HttpParser} (h : SameScan p q) {total : Nat}
    (hmsg : p.msgbuf.take total = q.msgbuf.take total) : Same (p.endAt total) (q.endAt total) := by
  refine ⟨⟨?_, h.2⟩, hmsg⟩
  unfold HttpParser.endAt
  conv_lhs => rw [h.1]
  rfl

section TwoCalls

variable {isResp zeroBody : Bool} {p : HttpParser} {buf : Bytes}

/-- A call that did not ask for more ignores the bytes behind its own. -/
theorem append_append_of_ne_zero (hp : Between isResp zeroBody p) (tail : Bytes)
    (hsize : (p.msgbuf ++ (buf ++ tail)).length < 2 ^ 63)
    (h : (httpParserAppendMessage buf p).1 ≠ 0) :
    SameCall (httpParserAppendMessage buf p) (httpParserAppendMessage (buf ++ tail) p) := by
  have hready := (hp.appendBytes buf).ready
  have hcode := append_code buf hp
  have hcode' := append_code (buf ++ tail) hp
  obtain ⟨hsameCode, hsameEnd⟩ := callEnd_append_of_ne_zero hready tail (by rw [← hcode]; exact h)
  have hcongr := callEnd_congr (same_appendBytes_append p buf tail) (hready.withMessage_append tail)
  refine ⟨by rw [hcode, hcode', ← hsameCode, hcongr.1], fun hok => ?_⟩
  have hone : (callEnd (appendBytes buf p)).1 = 1 := by
    rw [← hcode]
    exact hok.resolve_left h
  have hone' : (callEnd (appendBytes (buf ++ tail) p)).1 = 1 := by
    rw [← hcongr.1, hsameCode, hone]
  obtain ⟨htotal, hscan⟩ := hsameEnd hone
  have htotal' := hcongr.2.1 (hsameCode.trans hone)
  rw [htotal] at htotal'
  have hsize' : (p.msgbuf ++ buf).length < 2 ^ 63 := by
    simp only [List.length_append] at hsize ⊢
    omega
  rw [append_of_one hp hone hsize', append_of_one hp hone' hsize, ← htotal']
  refine ⟨rfl, Same.endAt (sameScan_equivalence.trans hscan hcongr.2.2.1) ?_⟩
  obtain ⟨hmsg, hle⟩ := callEnd_inside hready
  rw [hmsg, (callEnd_inside (hp.appendBytes (buf ++ tail)).ready).1, appendBytes_msgbuf,
    appendBytes_msgbuf, ← List.append_assoc]
  exact (List.take_append_of_le_length (hle hone)).symm

/-- A call that asked for more and the next one do what one call on both fragments does. -/
theorem append_append_of_zero (hp : Between isResp zeroBody p) (tail : Bytes)
    (hsize : (p.msgbuf ++ (buf ++ tail)).length < 2 ^ 63)
    (h : (httpParserAppendMessage buf p).1 = 0)
    (hb : ContentLengthsBounded (httpParserAppendMessage (buf ++ tail) p).2.2) :
    let next := (httpParserAppendMessage buf p).2.2
    (httpParserAppendMessage (buf ++ tail) p).1 = (httpParserAppendMessage tail next).1 ∧
    Same (httpParserAppendMessage tail next).2.2 (httpParserAppendMessage (buf ++ tail) p).2.2 ∧
    (0 ≤ (httpParserAppendMessage tail next).1 →
      (httpParserAppendMessage (buf ++ tail) p).2.1
        = buf.length + (httpParserAppendMessage tail next).2.1) := by
  have hp' := hp.appendBytes buf
  have hzero : (callEnd (appendBytes buf p)).1 = 0 := by rw [← append_code _ hp, h]
  have hq := hp'.callEnd hzero
  obtain ⟨hqready, hqmsg, hresume⟩ := callEnd_append_of_zero hp'.ready tail hzero
  have hlonger := callEnd_congr (same_appendBytes_append p buf tail)
    (hp'.ready.withMessage_append tail)
  have hreach := length_le_callEnd hp'.ready tail hzero
  rw [append_of_zero hp hzero]
  dsimp only
  generalize (callEnd (appendBytes buf p)).2.2 = q at hq hqready hqmsg hresume hreach ⊢
  have hsecond := callEnd_congr (same_appendBytes q tail) (hqready.withMessage_append tail)
  rw [hqmsg] at hsecond
  have hends : SameEnd (callEnd (appendBytes tail q)) (callEnd (appendBytes (buf ++ tail) p)) :=
    hsecond.symm.trans (hresume.symm.trans hlonger)
  have hsizes : q.msgsize = p.msgsize + buf.length := by
    rw [HttpParser.msgsize, hqmsg, appendBytes_msgbuf, List.length_append]
    rfl
  have hsizeq : (q.msgbuf ++ tail).length < 2 ^ 63 := by
    rw [hqmsg, appendBytes_msgbuf, List.append_assoc]
    exact hsize
  rcases callEnd_codes (hq.appendBytes tail).ready with hcode | hcode | hcode
  · have hcode' := hends.1.symm.trans hcode
    rw [append_of_zero hq hcode, append_of_zero hp hcode']
    exact ⟨rfl, hends.2.2, fun _ => by simp⟩
  · have hcode' := hends.1.symm.trans hcode
    have htotal := hends.2.1 hcode
    rw [append_of_one hp hcode' hsize] at hb ⊢
    rw [append_of_one hq hcode hsizeq, ← htotal]
    refine ⟨rfl, Same.endAt hends.2.2.1 (by rw [hends.2.2.2]), fun _ => ?_⟩
    -- the end of the message lies behind the first fragment, so the count does not go below zero
    have hbounded : ContentLengthsBounded (callEnd (q.withMessage ((appendBytes buf p).msgbuf
        ++ tail))).2.2 := by
      have hlist : (callEnd (q.withMessage ((appendBytes buf p).msgbuf ++ tail))).2.2.headerList
          = (callEnd (appendBytes (buf ++ tail) p)).2.2.headerList := by
        rw [(hsecond.trans hends).2.2.1.1]
        rfl
      unfold ContentLengthsBounded at hb ⊢
      rw [hlist]
      exact hb
    have hmready : CallReady (q.withMessage ((appendBytes buf p).msgbuf ++ tail)) := by
      rw [← hqmsg]
      exact hqready.withMessage_append tail
    have hone := hsecond.1.trans hcode
    have hlengths := callEnd_lengths hmready
      (hq.lengths.of_sameScan (sameScan_withMessage q _)) (by rw [hone]; decide)
    have hsmall := smallLength_of_bounded (hlengths.2 (callEnd_headerComplete hmready hone)) hbounded
    have hmsize : ((appendBytes buf p).msgbuf ++ tail).length < 2 ^ 63 := by
      rw [← hqmsg]
      exact hsizeq
    have hle := hreach hmsize hsmall hone
    rw [hsecond.2.1 hone, HttpParser.msgsize, ← hqmsg, ← HttpParser.msgsize, hsizes] at hle
    obtain ⟨hmsg, hinside⟩ := callEnd_inside (hq.appendBytes tail).ready
    have hend := hinside hcode
    rw [HttpParser.msgsize, appendBytes_msgbuf] at hend
    have hbig : (callEnd (appendBytes tail q)).2.1 < sizeModulus := by
      unfold sizeModulus
      omega
    dsimp only
    rw [hsizes, sizeSub_of_le (by omega) hbig, sizeSub_of_le hle hbig]
    omega
  · have hcode' := hends.1.symm.trans hcode
    rw [append_of_bad hq hcode, append_of_bad hp hcode']
    exact ⟨rfl, hends.2.2, fun hneg => by simp at hneg⟩

end TwoCalls

theorem feed_of_ne_zero {f : Bytes} {rest : List Bytes} {p : HttpParser}
    (h : (httpParserAppendMessage f p).1 ≠ 0) :
    feed (f :: rest) p = { code := (httpParserAppendMessage f p).1
                           consumed := (httpParserAppendMessage f p).2.1
                           parser := (httpParserAppendMessage f p).2.2 } := by
  simp [feed, h]

theorem feed_of_zero {f : Bytes} {rest : List Bytes} {p : HttpParser}
    (h : (httpParserAppendMessage f p).1 = 0) :
    feed (f :: rest) p = { code := (feed rest (httpParserAppendMessage f p).2.2).code
                           consumed := (httpParserAppendMessage f p).2.1
                             + (feed rest (httpParserAppendMessage f p).2.2).consumed
                           parser := (feed rest (httpParserAppendMessage f p).2.2).parser } := by
  simp [feed, h]

theorem feed_singleton (f : Bytes) (p : HttpParser) :
    feed [f] p = { code := (httpParserAppendMessage f p).1
                   consumed := (httpParserAppendMessage f p).2.1
                   parser := (httpParserAppendMessage f p).2.2 } := by
  by_cases h : (httpParserAppendMessage f p).1 = 0
  · rw [feed_of_zero h, h]
    simp [feed]
  · exact feed_of_ne_zero h

def Fed.asCall (fed : Fed) : Int × Nat × HttpParser := (fed.code, fed.consumed, fed.parser)

/-- By induction on the fragments, with the invariant between two calls for the parser. -/
theorem sameCall_feed {isResp zeroBody : Bool} :
    ∀ (rest : List Bytes) (f : Bytes) {p : HttpParser}, Between isResp zeroBody p →
      (p.msgbuf ++ (f ++ rest.flatten)).length < 2 ^ 63 →
      ContentLengthsBounded (httpParserAppendMessage (f ++ rest.flatten) p).2.2 →
      SameCall (feed (f :: rest) p).asCall (httpParserAppendMessage (f ++ rest.flatten) p) := by
  intro rest
  induction rest with
  | nil =>
      intro f p hp hsize hb
      rw [feed_singleton, List.flatten_nil, List.append_nil]
      exact ⟨rfl, fun _ => ⟨rfl, same_refl _⟩⟩
  | cons g rest ih =>
      intro f p hp hsize hb
      rw [List.flatten_cons] at hsize hb ⊢
      by_cases h : (httpParserAppendMessage f p).1 = 0
      · obtain ⟨hcode, hsame, hcount⟩ := append_append_of_zero hp (g ++ rest.flatten) hsize h hb
        have hzero : (callEnd (appendBytes f p)).1 = 0 := by rw [← append_code _ hp, h]
        have hnext := (hp.appendBytes f).callEnd hzero
        have hmsg := (callEnd_inside (hp.appendBytes f).ready).1
        rw [feed_of_zero h]
        rw [append_of_zero hp hzero] at hcode hsame hcount ⊢
        dsimp only at hcode hsame hcount ⊢
        generalize (callEnd (appendBytes f p)).2.2 = q at hnext hmsg hcode hsame hcount ⊢
        have hbounded : ContentLengthsBounded (httpParserAppendMessage (g ++ rest.flatten) q).2.2 := by
          have hlist := congrArg HttpParser.headerList hsame.sameMessage
          unfold ContentLengthsBounded at hb ⊢
          rw [hlist] at hb
          exact hb
        have hfed := ih g hnext (by
          rw [hmsg, appendBytes_msgbuf, List.append_assoc]
          exact hsize) hbounded
        refine ⟨hfed.1.trans hcode.symm, fun hok => ?_⟩
        obtain ⟨hconsumed, hparser⟩ := hfed.2 hok
        refine ⟨?_, hparser.trans hsame⟩
        rw [hcount (by rw [← hfed.1]; rcases hok with hok | hok <;> simp_all [Fed.asCall])]
        exact congrArg (f.length + ·) hconsumed
      · rw [feed_of_ne_zero h]
        exact append_append_of_ne_zero hp (g ++ rest.flatten) hsize h

/-- A message and its fragments. The buffer holds the whole message, so its length is below the
largest size an allocation can have. -/
theorem feed_fragments_eq_feed_whole (isResp zeroBody : Bool) (memory : HttpParser)
    (fragments : List Bytes) (hsize : fragments.flatten.length < 2 ^ 63)
    (hlength : ContentLengthsBounded
      (feed [fragments.flatten] (freshParser isResp zeroBody memory)).parser) :
    let cut := feed fragments (freshParser isResp zeroBody memory)
    let whole := feed [fragments.flatten] (freshParser isResp zeroBody memory)
    cut.code = whole.code ∧
      (whole.code = 0 ∨ whole.code = 1 →
        cut.consumed = whole.consumed ∧ SameMessage cut.parser whole.parser) := by
  have hp := between_freshParser isResp zeroBody memory
  have hempty : (freshParser isResp zeroBody memory).msgbuf = [] := by
    unfold freshParser parseZeroBody httpParserInit
    cases zeroBody <;> rfl
  rw [feed_singleton] at hlength ⊢
  cases fragments with
  | nil =>
      have hcall : httpParserAppendMessage [] (freshParser isResp zeroBody memory)
          = (0, 0, appendBytes [] (freshParser isResp zeroBody memory)) := by
        cases isResp <;> cases zeroBody <;> rfl
      rw [List.flatten_nil, hcall]
      refine ⟨rfl, fun _ => ⟨rfl, Same.sameMessage ⟨sameScan_appendBytes _ _, ?_⟩⟩⟩
      rw [appendBytes_msgbuf, List.append_nil]
      rfl
  | cons f rest =>
      have hsame := sameCall_feed rest f hp (by rw [hempty]; exact hsize) hlength
      refine ⟨hsame.1, fun hok => ?_⟩
      obtain ⟨hconsumed, hparser⟩ := hsame.2 (by rw [hsame.1]; exact hok)
      exact ⟨hconsumed, hparser.sameMessage⟩

/-- A request cut inside a line end, inside a header name and inside the body, with the start of
another request behind it. -/
def postFragments : List Bytes :=
  [bytesOf "POST / HTTP/1.1\r", bytesOf "\nContent-Len", bytesOf "gth: 3\r\n\r\na", bytesOf "bcGET"]

theorem feed_postFragments :
    (feed [postFragments.flatten] (freshParser false false zeroedParser)).code = 1 ∧
    (feed postFragments (freshParser false false zeroedParser)).code
      = (feed [postFragments.flatten] (freshParser false false zeroedParser)).code ∧
    (feed postFragments (freshParser false false zeroedParser)).consumed
      = (feed [postFragments.flatten] (freshParser false false zeroedParser)).consumed := by
  have hone : (feed [postFragments.flatten] (freshParser false false zeroedParser)).code = 1 := by
    decide +kernel
  have hsame := feed_fragments_eq_feed_whole false false zeroedParser postFragments
    (by decide +kernel) (by decide +kernel)
  exact ⟨hone, hsame.1, (hsame.2 (Or.inr hone)).1⟩

end WorkflowModel.Http
