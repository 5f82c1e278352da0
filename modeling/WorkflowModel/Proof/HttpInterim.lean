import WorkflowModel.Http.Response
import WorkflowModel.Proof.HttpTwins
import WorkflowModel.Proof.HttpChunkTrace

/-!
# Interim responses

An interim response ends with its header. The calls that read it use its bytes and no others, however
the stream is cut, and leave a parser as `http_parser_init` makes it. That parser and the one the
response had at first are twins as long as the final response is being read, unless the caller had
asked for no body and the header of the final response announces one.
-/

namespace WorkflowModel.Http

open WorkflowModel Resume

/-- A parser of a response that has read a head and the empty line behind it. -/
structure ReadAs (head : Head) (p : HttpParser) : Prop where
  state : p.headerState = .headerComplete
  offset : p.headerOffset = head.text.length + 2
  code : p.code = some head.parts.2.1
  list : p.headerList.map HeaderLine.pair = head.entries
  chunked : p.chunked = head.entries.any makesChunked

def Head.SaysNoBody (head : Head) : Prop :=
  hasNoBody head.parts.2.1 = true ∨
    (head.entries.any makesChunked = false ∧ lengthAfter sizeMax head.entries = 0)

instance : DecidablePred Head.SaysNoBody := fun head =>
  inferInstanceAs (Decidable (hasNoBody head.parts.2.1 = true ∨ _))

theorem ReadAs.of_sameHeader {head : Head} {p q : HttpParser} (h : ReadAs head p)
    (hsame : SameHeader p q) : ReadAs head q where
  state := hsame.headerState_eq.trans h.state
  offset := hsame.headerOffset_eq.trans h.offset
  code := hsame.code_eq.trans h.code
  list := by rw [hsame.headerList_eq, h.list]
  chunked := hsame.chunked_eq.trans h.chunked

theorem ReadAs.saysNoBody_iff {head : Head} {p : HttpParser} (h : ReadAs head p)
    (hlength : p.contentLength = contentLengthAfter sizeMax p.headerList) :
    SaysNoBody p ↔ head.SaysNoBody := by
  rw [SaysNoBody, Head.SaysNoBody, hlength, contentLengthAfter_eq, h.list, h.code, h.chunked]
  rfl

section Complete

variable (zeroBody : Bool) (memory : HttpParser) {message rest : Bytes}

theorem run_complete {head : Head} (hmessage : message = head.text ++ (crlf ++ rest)) :
    (headerMachine.run message (freshParser true zeroBody memory)).1 = .stop 1 ∧
      ReadAs head (headerMachine.run message (freshParser true zeroBody memory)).2 := by
  have hready := freshParser_ready true zeroBody memory message
  obtain ⟨q, hrun, hq⟩ := run_head hready (by cases zeroBody <;> rfl) (by cases zeroBody <;> rfl)
    (unread_freshParser true zeroBody memory) (by simp [crlf]) hmessage
  have hresp := header_run_isResp hready
  rw [hrun, hq.run_end hmessage] at hresp ⊢
  have hqresp : q.isResp = true := by
    rw [show q.isResp = _ from hresp]
    cases zeroBody <;> rfl
  have hparts := hq.stored.parts
  rw [hqresp] at hparts
  refine ⟨rfl, rfl, ?_, hparts.2.2.1, hq.stored.list, hq.stored.chunked⟩
  rw [← hq.offset]

theorem head_of_run
    (h : (headerMachine.run message (freshParser true zeroBody memory)).1 = .stop 1) :
    ∃ (head : Head) (rest : Bytes), message = head.text ++ (crlf ++ rest) := by
  have hready := freshParser_ready true zeroBody memory message
  have hcomplete : (headerMachine.run message (freshParser true zeroBody memory)).2.headerState
      = .headerComplete := by
    rcases header_run_cases hready with hmore | ⟨-, hcomplete⟩ | hbad
    · simp [hmore] at h
    · exact hcomplete
    · simp [hbad] at h
  cases (headRead_freshParser true zeroBody memory message).run hready with
  | headerComplete head rest hmessage hoffset hstate stored => exact ⟨head, rest, hmessage⟩
  | startLine empties rest hmessage hoffset hstate unread => simp [hcomplete] at hstate
  | headerName head rest hmessage hoffset hstate stored behind => simp [hcomplete] at hstate
  | headerValue head f rest hmessage hoffset hstate stored hname => simp [hcomplete] at hstate

end Complete

/-- A response parser that has been fed `stream` and asks for more. -/
structure Midway (zeroBody : Bool) (memory : HttpParser) (stream : Bytes) (p : HttpParser) :
    Prop where
  waiting : Waiting true zeroBody stream p
  resumes : Resumes (freshParser true zeroBody memory) stream p

theorem midway_freshParser (zeroBody : Bool) (memory : HttpParser) :
    Midway zeroBody memory [] (freshParser true zeroBody memory) :=
  ⟨waiting_freshParser true zeroBody memory, resumes_freshParser true zeroBody memory⟩

section Midway

variable {zeroBody : Bool} {memory p : HttpParser} {stream buf rest : Bytes} {head : Head}

theorem Midway.append (h : Midway zeroBody memory stream p)
    (hcode : (httpParserAppendMessage buf p).1 = 0) :
    Midway zeroBody memory (stream ++ buf) (httpParserAppendMessage buf p).2.2 :=
  ⟨waiting_append h.waiting hcode, (h.resumes.append buf h.waiting.between
    (freshParser_ready true zeroBody memory stream)).2.1 hcode⟩

theorem transferLength_ne_zero (hp : BodyReady p) (hoffset : p.headerOffset ≤ p.msgsize)
    (h : (bodyEnd p).1 = 0) : (bodyEnd p).2.2.transferLength ≠ 0 := by
  obtain ⟨state, offset, hframe⟩ := bodyEnd_frame hp
  rw [hframe]
  intro hzero
  dsimp only at hzero
  rw [bodyEnd_of_length (by rw [hzero]; decide), hzero] at h
  have htotal : sizeAdd p.headerOffset 0 ≤ p.msgsize := (Nat.mod_le _ _).trans hoffset
  dsimp only at h
  rw [if_pos htotal] at h
  cases h

theorem Waiting.transferLength_ne_zero (h : Waiting true zeroBody stream p) (hstream : stream ≠ [])
    (hcomplete : p.headerState = .headerComplete) : p.transferLength ≠ 0 := by
  rcases h.asked with hnil | ⟨before, hready, hzero, rfl⟩
  · exact absurd hnil hstream
  · by_cases hlive : HeaderLive before
    · rcases header_run_cases (hready.ready hlive) with hmore | ⟨hstop, -⟩ | hbad
      · have hnext := Machine.ready_run_of_more headerMachine_resumable (hready.ready hlive) hmore
        rw [callEnd_of_more hlive hmore] at hcomplete
        exact absurd hcomplete hnext.1
      · have hinside := header_run_inside hready hlive hstop
        rw [callEnd_of_stop hlive hstop] at hzero ⊢
        refine Http.transferLength_ne_zero (startBody_ready hinside) ?_ hzero
        rw [startBody_headerOffset, HttpParser.msgsize, startBody_msgbuf]
        exact hinside
      · simp [callEnd_of_bad hlive hbad] at hzero
    · have hdone : before.headerState = .headerComplete := not_not.mp hlive
      rw [callEnd_of_body hdone] at hzero ⊢
      exact Http.transferLength_ne_zero (hready.body hdone) hready.header hzero

theorem Midway.readAs (h : Midway zeroBody memory stream p) (live : HeaderLive p)
    (hmessage : stream ++ buf = head.text ++ (crlf ++ rest)) :
    HeaderLive (appendBytes buf p) ∧
      (headerMachine.run (appendBytes buf p).msgbuf (appendBytes buf p)).1 = .stop 1 ∧
      ReadAs head (headerMachine.run (appendBytes buf p).msgbuf (appendBytes buf p)).2 := by
  obtain ⟨hstop, hread⟩ := run_complete zeroBody memory hmessage
  have hbuffer : (appendBytes buf p).msgbuf = stream ++ buf := by
    rw [appendBytes_msgbuf, h.waiting.message]
  cases h.resumes with
  | done complete stop same => exact absurd complete live
  | reading live' message more agree =>
      have hscan := Resumes.scan live message agree h.waiting.between buf []
      rw [List.append_nil] at hscan
      rw [hbuffer]
      exact ⟨appendBytes_live buf live, hscan.1.symm.trans hstop,
        hread.of_sameHeader hscan.2.sameHeader⟩

/-- A head whose message has no body was not complete before. -/
theorem Midway.live_of_bodiless (h : Midway zeroBody memory stream p)
    (hmessage : stream ++ buf = head.text ++ (crlf ++ rest))
    (hbodiless : zeroBody = true ∨ hasNoBody head.parts.2.1 = true) :
    HeaderLive p ∧ stream.length < head.text.length + 2 := by
  have hready := freshParser_ready true zeroBody memory stream
  obtain ⟨hstop, hread⟩ := run_complete zeroBody memory hmessage
  cases h.resumes with
  | reading live message more agree =>
      refine ⟨live, ?_⟩
      by_contra hlong
      obtain ⟨behind, hstream, -⟩ := exists_append_of_append_eq (head.text ++ crlf) rest
        (by rw [hmessage, List.append_assoc]) (by
          rw [List.length_append]
          exact Nat.not_lt.mp hlong)
      rw [List.append_assoc] at hstream
      obtain ⟨hearly, -⟩ := run_complete zeroBody memory hstream
      rw [more] at hearly
      cases hearly
  | done complete stop same =>
      exfalso
      rw [Machine.run_append_of_stop headerMachine_resumable buf hready (by rw [stop]; simp)] at hread
      have hcode := (hread.of_sameHeader same).code
      have hstream : stream ≠ [] := by
        rintro rfl
        have hmore : (headerMachine.run [] (freshParser true zeroBody memory)).1 = .more := by
          cases zeroBody <;> rfl
        rw [hmore] at stop
        cases stop
      refine h.waiting.transferLength_ne_zero hstream complete ?_
      rw [(h.waiting.between.lengths.2 complete).transfer, HttpParser.bodiless, hcode, Option.any_some]
      rcases hbodiless with hzero | hnone
      · rw [hzero, Bool.true_or, if_pos rfl]
      · rw [hnone, Bool.or_true, if_pos rfl]

/-- A message without a body ends with its header, and the call gives back what lies behind. -/
theorem Midway.append_of_bodiless (h : Midway zeroBody memory stream p)
    (hmessage : stream ++ buf = head.text ++ (crlf ++ rest))
    (hbodiless : zeroBody = true ∨ hasNoBody head.parts.2.1 = true)
    (hsize : (stream ++ buf).length < 2 ^ 63) :
    ∃ next, httpParserAppendMessage buf p = (1, head.text.length + 2 - stream.length, next) ∧
      next.code = some head.parts.2.1 := by
  have hbetween := h.waiting.between
  have hready := (hbetween.appendBytes buf).ready
  obtain ⟨live, hshort⟩ := h.live_of_bodiless hmessage hbodiless
  obtain ⟨hlive, hstop, hread⟩ := h.readAs live hmessage
  have hbuffer : (appendBytes buf p).msgbuf = stream ++ buf := by
    rw [appendBytes_msgbuf, h.waiting.message]
  have hinside := header_run_inside hready hlive hstop
  have hlengths := startBody_lengths (header_run_lengths (hready.ready hlive)
    ((hbetween.appendBytes buf).lengths.1 hlive))
  have hmsg := header_run_msgbuf (hready.ready hlive)
  have hend := callEnd_of_stop hlive hstop
  generalize (headerMachine.run (appendBytes buf p).msgbuf (appendBytes buf p)).2 = r
    at hread hinside hlengths hmsg hend
  have hbody := hread.of_sameHeader (sameHeader_startBody hread.state)
  have htransfer : (startBody r).transferLength = 0 := by
    rw [hlengths.transfer, HttpParser.bodiless, hbody.code, Option.any_some]
    rcases hbodiless with hzero | hnone
    · rw [hzero, Bool.true_or, if_pos rfl]
    · rw [hnone, Bool.or_true, if_pos rfl]
  have hcount : (startBody r).msgsize = (stream ++ buf).length := by
    rw [HttpParser.msgsize, startBody_msgbuf, hmsg, hbuffer]
  have hle : head.text.length + 2 ≤ (stream ++ buf).length := by
    rw [hmessage]
    simp only [List.length_append, crlf, List.length_cons, List.length_nil]
    omega
  have htotal : sizeAdd (startBody r).headerOffset (startBody r).transferLength
      = head.text.length + 2 := by
    rw [htransfer, hbody.offset]
    unfold sizeAdd sizeModulus
    omega
  rw [bodyEnd_of_length (by rw [htransfer]; decide), htotal, hcount, if_pos hle] at hend
  have happend := append_of_one hbetween (by rw [hend]) (by rw [h.waiting.message]; exact hsize)
  rw [hend] at happend
  refine ⟨_, happend.trans (Prod.ext rfl (Prod.ext ?_ rfl)), hbody.code⟩
  dsimp only
  rw [HttpParser.msgsize, h.waiting.message]
  exact sizeSub_of_le hshort.le (by unfold sizeModulus; omega)

theorem Midway.append_of_part (h : Midway zeroBody memory stream p) {more : Bytes}
    (hmessage : stream ++ buf ++ more = head.text ++ crlf) (hmore : more ≠ []) :
    (httpParserAppendMessage buf p).1 = 0 := by
  by_contra hcode
  have hready := freshParser_ready true zeroBody memory
  have hrun := (h.resumes.append buf h.waiting.between (hready stream)).2.2 hcode
  have hwhole := Machine.run_append_of_stop headerMachine_resumable more (hready _) hrun
  obtain ⟨hstop, hread⟩ := run_complete zeroBody memory
    (show stream ++ buf ++ more = head.text ++ (crlf ++ []) from hmessage)
  rw [hwhole] at hstop hread
  have hinside := (Machine.offset_run_of_stop headerMachine_resumable headerMachine_reaches
    (hready (stream ++ buf)) hstop).2
  have hoffset : headerMachine.offset (headerMachine.run (stream ++ buf)
      (freshParser true zeroBody memory)).2 = head.text.length + 2 := hread.offset
  have hlength := congrArg List.length hmessage
  have hpositive := List.length_pos_iff.mpr hmore
  simp only [List.length_append, crlf, List.length_cons, List.length_nil] at hlength hinside
  omega

end Midway

end WorkflowModel.Http
