import WorkflowModel.Proof.HttpCalls
import Mathlib.Data.List.TakeWhile

/-!
# The body of a message with a `Content-Length`

A message that is not chunked and has one `Content-Length` header with the numeral `N` should end `N`
bytes behind its header. The value goes through `atoi`, so it is an `int` before it becomes a `size_t`:
the framing is right for the numerals that an `int` holds and for no others.
-/

namespace WorkflowModel.Http

open WorkflowModel Resume

def HeaderLine.isNamedContentLength (line : HeaderLine) : Bool :=
  strcaseEq line.name (bytesOf "Content-Length")

/-- One `Content-Length` header with the numeral `value` is the only source of the length. -/
structure LengthGivenBy (value : Bytes) (p : HttpParser) : Prop where
  only : (p.headerList.filter HeaderLine.isNamedContentLength).map HeaderLine.value = [value]
  numeral : value ≠ [] ∧ ∀ c ∈ value, isDigit c = true
  notChunked : p.chunked = false
  status : p.code.any hasNoBody = false

/-- What a receiver of the message relies on when a call with `passed` bytes has returned 1 and
`returned`: the stream so far has a body of `length` bytes behind the header. -/
structure Framed (stream : Bytes) (passed returned length : Nat) (p : HttpParser) : Prop where
  header : p.headerOffset ≤ p.msgsize
  body : httpParserGetBody p = some ((stream.drop p.headerOffset).take length, length)
  enough : length ≤ (stream.drop p.headerOffset).length
  count : returned ≤ passed

theorem contentLengthAfter_of_none {start : Nat} {lines : List HeaderLine}
    (h : lines.filter HeaderLine.isContentLength = []) : contentLengthAfter start lines = start := by
  rw [List.filter_eq_nil_iff] at h
  induction lines with
  | nil => rfl
  | cons first lines ih =>
      rw [contentLengthAfter, List.foldl_cons, if_neg (h first (by simp))]
      exact ih fun l hl => h l (by simp [hl])

theorem contentLengthAfter_of_filter {start : Nat} {lines : List HeaderLine} {line : HeaderLine}
    (h : lines.filter HeaderLine.isContentLength = [line]) :
    contentLengthAfter start lines = sizeOfInt (atoi line.value) := by
  induction lines generalizing start with
  | nil => simp at h
  | cons first lines ih =>
      rw [contentLengthAfter, List.foldl_cons]
      by_cases hfirst : first.isContentLength = true
      · rw [List.filter_cons_of_pos hfirst, List.cons.injEq] at h
        rw [if_pos hfirst, h.1]
        exact contentLengthAfter_of_none h.2
      · rw [List.filter_cons_of_neg hfirst] at h
        rw [if_neg hfirst]
        exact ih h

theorem filter_isContentLength (lines : List HeaderLine) :
    lines.filter HeaderLine.isContentLength
      = (lines.filter HeaderLine.isNamedContentLength).filter
          fun line => line.value.head?.any isDigit := by
  rw [List.filter_filter]
  apply List.filter_congr
  intro l _
  rw [HeaderLine.isContentLength, HeaderLine.isNamedContentLength, Bool.and_comm]

theorem contentLengthAfter_of_named {start : Nat} {lines : List HeaderLine} {value : Bytes}
    (h : (lines.filter HeaderLine.isNamedContentLength).map HeaderLine.value = [value])
    (hdigit : value.head?.any isDigit) :
    contentLengthAfter start lines = sizeOfInt (atoi value) := by
  obtain ⟨line, hfilter, hvalue⟩ := List.map_eq_singleton_iff.mp h
  rw [← hvalue] at hdigit ⊢
  apply contentLengthAfter_of_filter
  rw [filter_isContentLength, hfilter]
  simp [hdigit]

theorem LengthGivenBy.numeralOf_eq {value : Bytes} {p : HttpParser} (h : LengthGivenBy value p) :
    numeralOf value = digitsValue 10 value := by
  rw [numeralOf, List.takeWhile_eq_self_iff.mpr h.numeral.2]

theorem LengthGivenBy.digit {value : Bytes} {p : HttpParser} (h : LengthGivenBy value p) :
    value.head?.any isDigit := by
  obtain ⟨hne, hall⟩ := h.numeral
  cases value with
  | nil => exact absurd rfl hne
  | cons c rest => simpa using hall c (by simp)

theorem LengthGivenBy.transferLength_eq {isResp : Bool} {value : Bytes} {p : HttpParser}
    (h : LengthGivenBy value p) (hp : BodyLengths isResp false p) :
    p.transferLength = sizeOfInt (atoi value) := by
  rw [hp.transfer, HttpParser.bodiless, Bool.false_or, h.status, h.notChunked, hp.content,
    contentLengthAfter_of_named h.only h.digit]
  simp

section Ends

variable {p : HttpParser}

theorem bodyEnd_total (hp : BodyReady p) (hdone : (bodyEnd p).1 = 1)
    (hchunked : (bodyEnd p).2.2.chunked = false) :
    (bodyEnd p).2.2.transferLength ≠ sizeMax ∧ (bodyEnd p).2.1
      = sizeAdd (bodyEnd p).2.2.headerOffset (bodyEnd p).2.2.transferLength := by
  obtain ⟨state, offset, hframe⟩ := bodyEnd_frame hp
  rw [hframe] at hchunked
  by_cases hlength : p.transferLength = sizeMax
  · simp [bodyEnd_of_unknown hlength hchunked] at hdone
  · rw [bodyEnd_of_length hlength]
    exact ⟨hlength, rfl⟩

theorem callEnd_total (hp : CallReady p) (hdone : (callEnd p).1 = 1)
    (hchunked : (callEnd p).2.2.chunked = false) :
    (callEnd p).2.2.transferLength ≠ sizeMax ∧ (callEnd p).2.1
      = sizeAdd (callEnd p).2.2.headerOffset (callEnd p).2.2.transferLength := by
  by_cases hlive : HeaderLive p
  · rcases header_run_cases (hp.ready hlive) with hmore | ⟨hstop, -⟩ | hbad
    · simp [callEnd_of_more hlive hmore] at hdone
    · rw [callEnd_of_stop hlive hstop] at hdone hchunked ⊢
      exact bodyEnd_total (startBody_ready (header_run_inside hp hlive hstop)) hdone hchunked
    · simp [callEnd_of_bad hlive hbad] at hdone
  · have hcomplete : p.headerState = .headerComplete := not_not.mp hlive
    rw [callEnd_of_body hcomplete] at hdone hchunked ⊢
    exact bodyEnd_total (hp.body hcomplete) hdone hchunked

theorem callEnd_headerOffset (hp : CallReady p) (hdone : (callEnd p).1 = 1) :
    (callEnd p).2.2.headerOffset ≤ p.msgsize := by
  by_cases hlive : HeaderLive p
  · rcases header_run_cases (hp.ready hlive) with hmore | ⟨hstop, -⟩ | hbad
    · simp [callEnd_of_more hlive hmore] at hdone
    · have hinside := header_run_inside hp hlive hstop
      rw [callEnd_of_stop hlive hstop, bodyEnd_headerOffset (startBody_ready hinside),
        startBody_headerOffset]
      rw [HttpParser.msgsize, header_run_msgbuf (hp.ready hlive)] at hinside
      exact hinside
    · simp [callEnd_of_bad hlive hbad] at hdone
  · have hcomplete : p.headerState = .headerComplete := not_not.mp hlive
    rw [callEnd_of_body hcomplete, bodyEnd_headerOffset (hp.body hcomplete)]
    exact hp.header

end Ends

/-- A parser that has asked for more: it is what the last call left behind. -/
structure Waiting (isResp zeroBody : Bool) (stream : Bytes) (p : HttpParser) : Prop where
  between : Between isResp zeroBody p
  message : p.msgbuf = stream
  asked : stream = [] ∨ ∃ before, CallReady before ∧ (callEnd before).1 = 0 ∧
    (callEnd before).2.2 = p

theorem waiting_append {isResp zeroBody : Bool} {stream buf : Bytes} {p : HttpParser}
    (hp : Waiting isResp zeroBody stream p) (h : (httpParserAppendMessage buf p).1 = 0) :
    Waiting isResp zeroBody (stream ++ buf) (httpParserAppendMessage buf p).2.2 := by
  have hready := hp.between.appendBytes buf
  have hzero : (callEnd (appendBytes buf p)).1 = 0 := by rw [← append_code _ hp.between, h]
  rw [append_of_zero hp.between hzero]
  refine ⟨hready.callEnd hzero, ?_, Or.inr ⟨_, hready.ready, hzero, rfl⟩⟩
  rw [(callEnd_inside hready.ready).1, appendBytes_msgbuf, hp.message]

theorem waiting_feed {isResp zeroBody : Bool} :
    ∀ (fragments : List Bytes) {stream : Bytes} {p : HttpParser}, Waiting isResp zeroBody stream p →
      (feed fragments p).code = 0 →
      Waiting isResp zeroBody (stream ++ fragments.flatten) (feed fragments p).parser := by
  intro fragments
  induction fragments with
  | nil =>
      intro stream p hp _
      rw [List.flatten_nil, List.append_nil]
      exact hp
  | cons f rest ih =>
      intro stream p hp h
      by_cases hcode : (httpParserAppendMessage f p).1 = 0
      · rw [feed_of_zero hcode] at h ⊢
        rw [List.flatten_cons, ← List.append_assoc]
        exact ih (waiting_append hp hcode) h
      · rw [feed_of_ne_zero hcode] at h
        exact absurd h hcode

theorem waiting_freshParser (isResp zeroBody : Bool) (memory : HttpParser) :
    Waiting isResp zeroBody [] (freshParser isResp zeroBody memory) where
  between := between_freshParser isResp zeroBody memory
  message := by
    unfold freshParser parseZeroBody httpParserInit
    cases zeroBody <;> rfl
  asked := Or.inl rfl

/-- A small length never ends a message inside the bytes that were there before the call. -/
theorem Waiting.length_le {isResp zeroBody : Bool} {stream buf : Bytes} {p : HttpParser}
    (hp : Waiting isResp zeroBody stream p) (hsize : (stream ++ buf).length < 2 ^ 63)
    (hdone : (callEnd (appendBytes buf p)).1 = 1)
    (hsmall : SmallLength (callEnd (appendBytes buf p)).2.2) :
    stream.length ≤ (callEnd (appendBytes buf p)).2.1 := by
  rcases hp.asked with hnil | ⟨before, hready, hzero, rfl⟩
  · simp [hnil]
  · have hmsg : before.msgbuf = stream := (callEnd_inside hready).1.symm.trans hp.message
    have hsame := callEnd_congr (same_appendBytes _ buf) (hp.between.ready.withMessage_append buf)
    rw [hp.message, ← hmsg] at hsame
    have hlength : SmallLength
        (callEnd ((callEnd before).2.2.withMessage (before.msgbuf ++ buf))).2.2 := by
      have htransfer := congrArg HttpParser.transferLength hsame.2.2.1.1
      unfold SmallLength at hsmall ⊢
      rw [htransfer] at hsmall
      exact hsmall
    rw [← hmsg] at hsize ⊢
    rw [← hsame.2.1 (hsame.1.trans hdone)]
    exact length_le_callEnd hready buf hzero hsize hlength (hsame.1.trans hdone)

theorem le_intMax_of_total {offset transfer total size : Nat}
    (hoffset : offset ≤ size) (hsize : size < 2 ^ 63) (htotal : total = sizeAdd offset transfer)
    (hinside : total ≤ size) (hheader : offset ≤ total)
    (hrange : transfer ≤ intMax ∨
      (sizeModulus - 2147483648 ≤ transfer ∧ transfer < sizeModulus)) :
    transfer ≤ intMax ∧ total = offset + transfer := by
  unfold sizeAdd at htotal
  unfold sizeModulus intMax at *
  omega

section Ended

variable {stream : Bytes} {q : HttpParser} {total : Nat}

/-- A message that a call has found to end at `total`. -/
structure Ended (stream : Bytes) (q : HttpParser) (total : Nat) : Prop where
  size : stream.length < 2 ^ 63
  buffer : q.msgbuf = stream
  complete : q.headerState = .headerComplete
  header : q.headerOffset ≤ stream.length
  inside : total ≤ stream.length
  total_eq : total = sizeAdd q.headerOffset q.transferLength

theorem Ended.endAt_msgsize (h : Ended stream q total) : (q.endAt total).msgsize = total := by
  rw [HttpParser.msgsize, HttpParser.endAt, List.length_take, h.buffer, Nat.min_eq_left h.inside]

theorem Ended.getBody (h : Ended stream q total) : httpParserGetBody (q.endAt total)
    = some ((stream.take total).drop q.headerOffset, sizeSub total q.headerOffset) := by
  have hstate : (q.endAt total).headerState = .headerComplete := h.complete
  rw [httpParserGetBody, h.endAt_msgsize, hstate, ← h.buffer]
  rfl

theorem Ended.le_intMax_of_framed (h : Ended stream q total) {value : Bytes}
    {passed returned length : Nat} (htransfer : q.transferLength = sizeOfInt (atoi value))
    (hframed : Framed stream passed returned length (q.endAt total)) : length ≤ intMax := by
  have hheader : q.headerOffset ≤ total := by
    rw [← h.endAt_msgsize]
    exact hframed.header
  have hexact := le_intMax_of_total h.header h.size h.total_eq h.inside hheader
    (by rw [htransfer]; exact sizeOfInt_atoi_range value)
  have hlength : sizeSub total q.headerOffset = length := by
    have hbody := h.getBody.symm.trans hframed.body
    rw [Option.some.injEq, Prod.mk.injEq] at hbody
    exact hbody.2
  have hsize := h.size
  have hinside := h.inside
  rw [← hlength, sizeSub_of_le hheader (by unfold sizeModulus; omega)]
  omega

theorem Ended.framed (h : Ended stream q total) {passed returned length : Nat}
    (hlength : q.transferLength = length) (hle : length ≤ intMax) (hcount : returned ≤ passed) :
    Framed stream passed returned length (q.endAt total) := by
  have hsize := h.size
  have hinside := h.inside
  have htotal : total = q.headerOffset + length := by
    have hheader := h.header
    rw [h.total_eq, hlength, sizeAdd]
    unfold intMax at hle
    unfold sizeModulus
    omega
  refine ⟨?_, ?_, ?_, hcount⟩
  · rw [h.endAt_msgsize, htotal]
    exact Nat.le_add_right _ _
  · rw [h.getBody, sizeSub_of_le (by omega) (by unfold sizeModulus; omega), htotal, List.drop_take,
      Nat.add_sub_cancel_left]
    rfl
  · rw [List.length_drop]
    change _ ≤ _ - q.headerOffset
    omega

end Ended

theorem framed_iff_le_intMax (isResp : Bool) (memory : HttpParser) (earlier : List Bytes)
    (last value : Bytes) (hsize : (earlier.flatten ++ last).length < 2 ^ 63)
    (hbefore : (feed earlier (freshParser isResp false memory)).code = 0)
    (hdone : (httpParserAppendMessage last
      (feed earlier (freshParser isResp false memory)).parser).1 = 1)
    (hgiven : LengthGivenBy value (httpParserAppendMessage last
      (feed earlier (freshParser isResp false memory)).parser).2.2) :
    let call := httpParserAppendMessage last (feed earlier (freshParser isResp false memory)).parser
    Framed (earlier.flatten ++ last) last.length call.2.1 (digitsValue 10 value) call.2.2 ↔
      digitsValue 10 value ≤ intMax := by
  have hwaiting := waiting_feed earlier (waiting_freshParser isResp false memory) hbefore
  rw [List.nil_append] at hwaiting
  generalize (feed earlier (freshParser isResp false memory)).parser = p at hwaiting hdone hgiven ⊢
  have hp := hwaiting.between
  have hmsg := hwaiting.message
  have hready := (hp.appendBytes last).ready
  rw [append_code _ hp] at hdone
  have hreach := hwaiting.length_le hsize hdone
  rw [append_of_one hp hdone (by rw [hmsg]; exact hsize)] at hgiven ⊢
  obtain ⟨hbuffer, hinside⟩ := callEnd_inside hready
  have hlengths := (callEnd_lengths hready (hp.appendBytes last).lengths (by rw [hdone]; decide)).2
    (callEnd_headerComplete hready hdone)
  have hstate := callEnd_headerComplete hready hdone
  have htotal := callEnd_total hready hdone hgiven.notChunked
  have hoffset := callEnd_headerOffset hready hdone
  have hend := hinside hdone
  rw [appendBytes_msgbuf, hmsg] at hbuffer
  have hmsgsize : (appendBytes last p).msgsize = (earlier.flatten ++ last).length := by
    rw [HttpParser.msgsize, appendBytes_msgbuf, hmsg]
  rw [hmsgsize] at hoffset hend
  rw [HttpParser.msgsize, hmsg]
  generalize callEnd (appendBytes last p) = result
    at hgiven hreach hbuffer hlengths hstate htotal hoffset hend ⊢
  obtain ⟨code, total, q⟩ := result
  dsimp only at hgiven hreach hbuffer hlengths hstate htotal hoffset hend ⊢
  have hended : Ended (earlier.flatten ++ last) q total :=
    ⟨hsize, hbuffer, hstate, hoffset, hend, htotal.2⟩
  have hnumbers : LengthGivenBy value q :=
    ⟨hgiven.only, hgiven.numeral, hgiven.notChunked, hgiven.status⟩
  have htransfer := hnumbers.transferLength_eq hlengths
  constructor
  · exact hended.le_intMax_of_framed htransfer
  · intro hle
    have hlength : q.transferLength = digitsValue 10 value := by
      have hnumeral := hgiven.numeralOf_eq
      rw [htransfer, sizeOfInt_atoi_of_le hgiven.digit (by rw [hnumeral]; exact hle), hnumeral]
    have hcount := hreach (Or.inr (by rw [hlength]; exact hle))
    apply hended.framed hlength hle
    rw [sizeSub_of_le hcount (by unfold sizeModulus; omega)]
    rw [List.length_append] at hend
    omega

theorem framed_postFragments :
    let before := (feed (postFragments.take 3) (freshParser false false zeroedParser)).parser
    let call := httpParserAppendMessage (bytesOf "bcGET") before
    call.1 = 1 ∧ Framed postFragments.flatten 5 call.2.1 3 call.2.2 := by
  refine ⟨by decide +kernel, ?_⟩
  exact (framed_iff_le_intMax false zeroedParser (postFragments.take 3) (bytesOf "bcGET")
    (bytesOf "3") (by decide +kernel) (by decide +kernel) (by decide +kernel)
    ⟨by decide +kernel, by decide +kernel, by decide +kernel, by decide +kernel⟩).mpr
    (by decide +kernel)

/-- A request whose `Content-Length` is `2^32 - 6`, which an `int` holds as `-6`. -/
def wrappedRequest : Bytes := bytesOf "POST / HTTP/1.1\r\nContent-Length: 4294967290\r\n\r\n"

/-- The call accepts the request at once, six bytes before the end of its own header. -/
theorem not_framed_wrappedRequest :
    let call := httpParserAppendMessage wrappedRequest (freshParser false false zeroedParser)
    call.1 = 1 ∧ LengthGivenBy (bytesOf "4294967290") call.2.2 ∧
      call.2.2.msgsize < call.2.2.headerOffset ∧
      (httpParserGetBody call.2.2).map Prod.snd = some (2 ^ 64 - 6) ∧
      ¬ Framed wrappedRequest wrappedRequest.length call.2.1 (digitsValue 10 (bytesOf "4294967290"))
        call.2.2 := by
  have hoffset : (httpParserAppendMessage wrappedRequest
      (freshParser false false zeroedParser)).2.2.msgsize
        < (httpParserAppendMessage wrappedRequest
            (freshParser false false zeroedParser)).2.2.headerOffset := by
    decide +kernel
  refine ⟨by decide +kernel, ⟨by decide +kernel, by decide +kernel, by decide +kernel,
    by decide +kernel⟩, hoffset, by decide +kernel, fun hframed => ?_⟩
  exact absurd hframed.header (Nat.not_le.mpr hoffset)

end WorkflowModel.Http
