import WorkflowModel.Proof.HttpBounds

/-!
# The bounds of the parser in every run

Whatever is fed to a parser, and whatever its calls return, the offsets lie in the message and the message in
the buffer. What carries this from call to call is that a call which does not end the message leaves its loops
so that they can be entered again.
-/

namespace WorkflowModel.Http

open WorkflowModel Resume

variable {p entry : HttpParser} {message buf : Bytes} {n : Nat}

theorem le_doubleUpTo (fuel need size : Nat) (h : need ≤ size * 2 ^ fuel) : need ≤ doubleUpTo fuel need size := by
  induction fuel generalizing size with
  | zero => simpa [doubleUpTo] using h
  | succ fuel ih =>
      rw [doubleUpTo]
      split_ifs with hless
      · refine ih (size * 2) ?_
        rwa [Nat.mul_assoc, ← Nat.pow_succ']
      · exact Nat.le_of_not_lt hless

theorem growBuffer_msgbuf : (growBuffer n p).msgbuf = p.msgbuf := by
  unfold growBuffer
  dsimp only
  split_ifs <;> rfl

theorem lt_bufsize_growBuffer : p.msgsize + n < (growBuffer n p).bufsize := by
  unfold growBuffer
  dsimp only
  split_ifs with hneed
  · have hpow : p.msgsize + n + 1 ≤ 2 ^ (p.msgsize + n + 1) := Nat.lt_two_pow_self.le
    have hinit : 1 ≤ max httpMsgbufInitSize (2 * p.bufsize) := (show 1 ≤ httpMsgbufInitSize by decide).trans (le_max_left _ _)
    exact le_doubleUpTo _ _ _ (hpow.trans (Nat.le_mul_of_pos_left _ hinit))
  · exact Nat.lt_of_succ_le (Nat.le_of_not_lt hneed)

theorem appendBytes_bufsize : (appendBytes buf p).bufsize = (growBuffer buf.length p).bufsize := rfl

theorem appendBytes_buffer : (appendBytes buf p).msgsize < (appendBytes buf p).bufsize := by
  rw [HttpParser.msgsize, appendBytes_msgbuf, appendBytes_bufsize, List.length_append]
  exact lt_bufsize_growBuffer

theorem appendBytes_access : Access.appendBytes buf p = some (appendBytes buf p) := by
  have hfits : (growBuffer buf.length p).msgsize + buf.length ≤ (growBuffer buf.length p).bufsize := by
    rw [HttpParser.msgsize, growBuffer_msgbuf]
    exact lt_bufsize_growBuffer.le
  rw [Access.appendBytes, if_pos hfits, growBuffer_msgbuf]
  rfl

structure Bounded (p : HttpParser) : Prop where
  buffer : p.bufsize ≠ 0 → p.msgsize < p.bufsize
  name : NameEnds p
  call : p.complete = false → CallReady p

theorem nameEnds_of_complete (h : p.headerState = .headerComplete) : NameEnds p := by
  intro hvalue
  simp [h] at hvalue

theorem bounded_freshParser (isResp zeroBody : Bool) (memory : HttpParser) :
    Bounded (freshParser isResp zeroBody memory) := by
  have hstate : (freshParser isResp zeroBody memory).headerState = .startLine := by cases zeroBody <;> rfl
  refine ⟨fun hbuf => absurd ?_ hbuf, fun hvalue => ?_, fun _ => ⟨?_, fun hcomplete => ?_⟩⟩
  · cases zeroBody <;> rfl
  · simp [hstate] at hvalue
  · cases zeroBody <;> exact Nat.zero_le _
  · simp [hstate] at hcomplete

theorem Bounded.appendBytes (hp : Bounded p) (hopen : p.complete = false) :
    Bounded (appendBytes buf p) ∧ (Http.appendBytes buf p).complete = false := by
  have hsame : Same (p.withMessage (p.msgbuf ++ buf)) (Http.appendBytes buf p) := by
    refine ⟨?_, rfl⟩
    exact sameScan_equivalence.trans (sameScan_equivalence.symm (sameScan_withMessage p _)) (sameScan_appendBytes p buf)
  have hcomplete : (Http.appendBytes buf p).complete = false := by
    rw [hsame.1.1]
    exact hopen
  have hstate : (Http.appendBytes buf p).headerState = p.headerState := by
    rw [hsame.1.1]
    rfl
  refine ⟨⟨fun _ => appendBytes_buffer, fun hvalue => ?_, fun _ => ?_⟩, hcomplete⟩
  · have hname := hp.name (hstate.symm.trans hvalue)
    have hbuf : (Http.appendBytes buf p).namebuf = p.namebuf := by
      unfold Http.appendBytes growBuffer
      dsimp only
      split_ifs <;> rfl
    rwa [hbuf]
  · exact ((hp.call hopen).withMessage_append buf).of_same hsame

theorem bodyEnd_rejects (hp : BodyReady p) (h : (bodyEnd p).1 ≤ 0) : BodyReady (bodyEnd p).2.2 := by
  by_cases hlength : p.transferLength = sizeMax
  · cases hchunked : p.chunked with
    | false => rwa [bodyEnd_of_unknown hlength hchunked]
    | true =>
        have hready := hp hlength hchunked
        rw [bodyEnd_of_chunked hlength hchunked hready.1] at h ⊢
        have hstop : (chunkMachine.run p.msgbuf p).1 ≠ .stop 1 := by
          intro hrun
          simp [hrun, retOf] at h
        intro _ _
        rw [chunk_run_msgbuf hready]
        exact chunk_run_rejects hready hstop
  · rwa [bodyEnd_of_length hlength]

theorem bodyEnd_bufsize (hp : BodyReady p) : (bodyEnd p).2.2.bufsize = p.bufsize := by
  obtain ⟨state, offset, hframe⟩ := bodyEnd_frame hp
  rw [hframe]

theorem bodyEnd_callReady (hp : BodyReady p) (hoffset : p.headerOffset ≤ p.msgsize) (h : (bodyEnd p).1 ≤ 0) :
    CallReady (bodyEnd p).2.2 := by
  refine ⟨?_, fun _ => bodyEnd_rejects hp h⟩
  rw [bodyEnd_headerOffset hp, HttpParser.msgsize, (bodyEnd_inside hp).1]
  exact hoffset

theorem startBody_bufsize : (startBody p).bufsize = p.bufsize := by
  unfold startBody
  split_ifs <;> rfl

/-- How a call ends: the buffer is the one it began with, and if the message is not at its end, the next call
can go on. -/
theorem callEnd_spec (hp : CallReady p) (hname : NameEnds p) :
    (callEnd p).2.2.msgbuf = p.msgbuf ∧ (callEnd p).2.2.bufsize = p.bufsize ∧ NameEnds (callEnd p).2.2 ∧
      ((callEnd p).1 ≤ 0 → CallReady (callEnd p).2.2) := by
  by_cases hlive : HeaderLive p
  · have hready := hp.ready hlive
    obtain ⟨hmsg, -, -, hsize⟩ := header_run_frame hready
    have hrejected : (headerMachine.run p.msgbuf p).1 ≠ .stop 1 → CallReady (headerMachine.run p.msgbuf p).2 := by
      intro hstop
      obtain ⟨hagain, hoffset⟩ := header_run_rejects hready hstop
      refine ⟨?_, fun hcomplete => absurd hcomplete hagain⟩
      rw [HttpParser.msgsize, hmsg]
      exact hoffset
    rcases header_run_cases hready with hrun | ⟨hrun, hcomplete⟩ | hrun
    · rw [callEnd_of_more hlive hrun]
      exact ⟨hmsg, hsize, header_run_nameEnds hready hname, fun _ => hrejected (by simp [hrun])⟩
    · rw [callEnd_of_stop hlive hrun]
      have hinside := header_run_inside hp hlive hrun
      have hbody := startBody_ready hinside
      refine ⟨?_, ?_, nameEnds_of_complete ?_, bodyEnd_callReady hbody ?_⟩
      · rw [(bodyEnd_inside hbody).1, startBody_msgbuf, hmsg]
      · rw [bodyEnd_bufsize hbody, startBody_bufsize, hsize]
      · rw [bodyEnd_headerState hbody, startBody_headerState, hcomplete]
      · rw [startBody_headerOffset, HttpParser.msgsize, startBody_msgbuf]
        exact hinside
    · rw [callEnd_of_bad hlive hrun]
      exact ⟨hmsg, hsize, header_run_nameEnds hready hname, fun _ => hrejected (by simp [hrun])⟩
  · have hcomplete : p.headerState = .headerComplete := not_not.mp hlive
    have hbody := hp.body hcomplete
    rw [callEnd_of_body hcomplete]
    refine ⟨(bodyEnd_inside hbody).1, bodyEnd_bufsize hbody, nameEnds_of_complete ?_, bodyEnd_callReady hbody hp.header⟩
    rw [bodyEnd_headerState hbody, hcomplete]

theorem Bounded.append (hp : Bounded p) : Bounded (httpParserAppendMessage buf p).2.2 := by
  cases hopen : p.complete with
  | true =>
      rw [httpParserAppendMessage, if_pos hopen]
      exact hp
  | false =>
      obtain ⟨hstart, hstill⟩ : Bounded (Http.appendBytes buf p) ∧ _ := hp.appendBytes hopen
      obtain ⟨hmsg, hsize, hname, hready⟩ := callEnd_spec (hstart.call hstill) hstart.name
      rw [append_eq hopen, giveBack]
      split_ifs with hret
      · refine ⟨fun _ => ?_, hname, fun _ => hready hret⟩
        rw [HttpParser.msgsize, hmsg, hsize]
        exact appendBytes_buffer
      · refine ⟨fun _ => ?_, hname, fun hnot => ?_⟩
        · change ((callEnd (Http.appendBytes buf p)).2.2.msgbuf.take _).length < (callEnd (Http.appendBytes buf p)).2.2.bufsize
          rw [hmsg, hsize]
          exact (List.length_take_le' _ _).trans_lt appendBytes_buffer
        · simp [endMessage] at hnot

/-- The parser after a call on each fragment in order, whatever the calls return. -/
def feedAll (fragments : List Bytes) (parser : HttpParser) : HttpParser :=
  fragments.foldl (fun parser fragment => (httpParserAppendMessage fragment parser).2.2) parser

theorem bounded_feedAll (fragments : List Bytes) (hp : Bounded p) : Bounded (feedAll fragments p) := by
  induction fragments generalizing p with
  | nil => exact hp
  | cons fragment rest ih => exact ih hp.append

theorem header_run_accepts (hp : headerMachine.Ready HeaderLive message p) (h : ¬(parseMessageHeader message p).1 ≤ 0) :
    (headerMachine.run message p).1 = .stop 1 := by
  rcases header_run_cases hp with hrun | ⟨hrun, -⟩ | hrun
  · simp [parseMessageHeader, hrun, retOf] at h
  · exact hrun
  · simp [parseMessageHeader, hrun, retOf] at h

theorem parseBody_access (hp : BodyReady p) : Access.parseBody n p = some (parseBody n p) := by
  unfold Access.parseBody parseBody
  dsimp only
  by_cases hlength : p.transferLength ≠ sizeMax
  · simp only [if_pos hlength]
    split_ifs <;> rfl
  by_cases hchunked : p.chunked = true
  · by_cases hstate : p.chunkState ≠ .chunkComplete
    · have hready := hp (not_not.mp hlength) hchunked
      have haccess := parseChunk_access hready (show p.msgbuf.length - p.chunkOffset < p.msgsize + 1 by
        rw [HttpParser.msgsize]; omega)
      simp only [if_neg hlength, hchunked, if_pos hstate, haccess, Option.bind_eq_bind, Option.bind_some]
      split_ifs <;> rfl
    · simp [hlength, hchunked, hstate]
  · simp [hlength, hchunked]

/-- A call makes its accesses in bounds and its loops end, with the result that the call has on lists. -/
theorem Bounded.append_access (hp : Bounded p) :
    Access.httpParserAppendMessage buf p = some (httpParserAppendMessage buf p) := by
  cases hopen : p.complete with
  | true => simp [Access.httpParserAppendMessage, httpParserAppendMessage, hopen]
  | false =>
      obtain ⟨hstart, hstill⟩ : Bounded (Http.appendBytes buf p) ∧ _ := hp.appendBytes hopen
      have hcall := hstart.call hstill
      simp only [Access.httpParserAppendMessage, httpParserAppendMessage, hopen, Bool.false_eq_true, if_false,
        appendBytes_access, Option.bind_eq_bind, Option.bind_some, parseBuffered]
      generalize Http.appendBytes buf p = start at hstart hcall
      by_cases hheader : start.headerState ≠ .headerComplete
      · have hready := hcall.ready hheader
        have haccess := parseMessageHeader_access hready hstart.name
          (show start.msgbuf.length - start.headerOffset < start.msgsize + 1 by rw [HttpParser.msgsize]; omega)
        simp only [if_pos hheader, haccess, Option.bind_some]
        split_ifs with hret
        · rfl
        · exact parseBody_access (startBody_ready (header_run_inside hcall hheader (header_run_accepts hready hret)))
      · simp only [if_neg hheader]
        exact parseBody_access (hcall.body (not_not.mp hheader))

/-- The parser with which a call on `buf` enters `__parse_message_header`. -/
def entersHeader (buf : Bytes) (parser : HttpParser) : Option HttpParser :=
  if parser.complete then none
  else do
    let parser ← Access.appendBytes buf parser
    if parser.headerState ≠ .headerComplete then some parser else none

/-- The parser with which a call on `buf` gets behind the header. -/
def entersBody (buf : Bytes) (parser : HttpParser) : Option HttpParser :=
  if parser.complete then none
  else do
    let parser ← Access.appendBytes buf parser
    if parser.headerState ≠ .headerComplete then do
      let (ret, next) ← Access.parseMessageHeader (parser.msgsize + 1) parser.msgbuf parser
      if ret ≤ 0 then none else some (startBody next)
    else some parser

/-- The parser with which a call on `buf` enters `__parse_chunk`. -/
def entersChunk (buf : Bytes) (parser : HttpParser) : Option HttpParser := do
  let parser ← entersBody buf parser
  if parser.transferLength = sizeMax ∧ parser.chunked ∧ parser.chunkState ≠ .chunkComplete then some parser else none

/-- The bounds of the calls on a parser. A round that would read or write out of bounds has no result, and
neither has a call with a loop that does not end in one round more than the message has bytes. -/
structure ParserBounds (p : HttpParser) : Prop where
  buffer : p.bufsize ≠ 0 → p.msgsize < p.bufsize
  copied : ∀ {buf entry}, Access.appendBytes buf p = some entry → entry.msgsize < entry.bufsize
  header : ∀ {buf entry q}, entersHeader buf p = some entry →
    Iteration (Access.headerRound entry.msgbuf) Access.endsHeader entry q →
      q.headerOffset ≤ entry.msgsize ∧
        ∃ ret next, Access.headerRound entry.msgbuf q = some (ret, next) ∧
          (0 < ret → q.headerOffset < next.headerOffset ∧ next.headerOffset ≤ entry.msgsize)
  chunk : ∀ {buf entry q}, entersChunk buf p = some entry →
    Iteration (Access.chunkRound entry.msgbuf) Access.endsChunks entry q →
      q.headerOffset ≤ entry.msgsize ∧ q.chunkOffset ≤ entry.msgsize ∧
        ∃ ret next, Access.chunkRound entry.msgbuf q = some (ret, next) ∧
          (0 < ret → q.chunkOffset < next.chunkOffset ∧ next.chunkOffset ≤ entry.msgsize)
  call : ∀ buf, Access.httpParserAppendMessage buf p = some (httpParserAppendMessage buf p)

theorem Bounded.entersHeader (hp : Bounded p) (h : entersHeader buf p = some entry) :
    headerMachine.Ready HeaderLive entry.msgbuf entry ∧ NameEnds entry := by
  cases hopen : p.complete with
  | true => simp [Http.entersHeader, hopen] at h
  | false =>
      obtain ⟨hstart, hstill⟩ : Bounded (Http.appendBytes buf p) ∧ _ := hp.appendBytes hopen
      simp only [Http.entersHeader, hopen, Bool.false_eq_true, if_false, appendBytes_access, Option.bind_eq_bind,
        Option.bind_some] at h
      split_ifs at h with hheader
      rw [← Option.some.inj h]
      exact ⟨(hstart.call hstill).ready hheader, hstart.name⟩

theorem Bounded.entersBody (hp : Bounded p) (h : entersBody buf p = some entry) :
    BodyReady entry ∧ entry.headerOffset ≤ entry.msgsize := by
  cases hopen : p.complete with
  | true => simp [Http.entersBody, hopen] at h
  | false =>
      obtain ⟨hstart, hstill⟩ : Bounded (Http.appendBytes buf p) ∧ _ := hp.appendBytes hopen
      have hcall := hstart.call hstill
      simp only [Http.entersBody, hopen, Bool.false_eq_true, if_false, appendBytes_access, Option.bind_eq_bind,
        Option.bind_some] at h
      generalize Http.appendBytes buf p = start at hstart hcall h
      by_cases hheader : start.headerState ≠ .headerComplete
      · have hready := hcall.ready hheader
        have haccess := parseMessageHeader_access hready hstart.name
          (show start.msgbuf.length - start.headerOffset < start.msgsize + 1 by rw [HttpParser.msgsize]; omega)
        simp only [if_pos hheader, haccess, Option.bind_some] at h
        split_ifs at h with hret
        have hinside := header_run_inside hcall hheader (header_run_accepts hready hret)
        rw [← Option.some.inj h]
        refine ⟨startBody_ready hinside, ?_⟩
        rw [startBody_headerOffset, HttpParser.msgsize, startBody_msgbuf]
        exact hinside
      · rw [if_neg hheader] at h
        rw [← Option.some.inj h]
        exact ⟨hcall.body (not_not.mp hheader), hcall.header⟩

theorem Bounded.entersChunk (hp : Bounded p) (h : entersChunk buf p = some entry) :
    chunkMachine.Ready ChunkLive entry.msgbuf entry ∧ entry.headerOffset ≤ entry.msgsize := by
  obtain ⟨body, hbody, hentry⟩ := Option.bind_eq_some_iff.mp h
  split_ifs at hentry with hloop
  obtain ⟨hready, hoffset⟩ := hp.entersBody hbody
  rw [← Option.some.inj hentry]
  exact ⟨hready hloop.1 hloop.2.1, hoffset⟩

theorem Bounded.parserBounds (hp : Bounded p) : ParserBounds p where
  buffer := hp.buffer
  copied := by
    intro buf entry h
    rw [appendBytes_access] at h
    rw [← Option.some.inj h]
    exact appendBytes_buffer
  header := by
    intro buf entry q h hq
    obtain ⟨hready, hname⟩ := hp.entersHeader h
    obtain ⟨hround, hkept⟩ := (header_rounds entry.msgbuf).of_iteration headerMachine_resumable hready hname hq
    have haccess := headerRound_access hround.2 hkept
    exact ⟨hround.2, _, _, haccess, headerRound_advance hround hkept haccess⟩
  chunk := by
    intro buf entry q h hq
    obtain ⟨hready, hoffset⟩ := hp.entersChunk h
    obtain ⟨hround, hheader⟩ := chunk_iteration hready hoffset hq
    have haccess := chunkRound_access hround.2
    exact ⟨hheader, hround.2, _, _, haccess, chunkRound_advance hround haccess⟩
  call := fun _ => hp.append_access

/-- Any bytes in any fragments leave a parser whose calls stay in bounds and end. -/
theorem parserBounds_of_feed (isResp zeroBody : Bool) (memory : HttpParser) (fragments : List Bytes) :
    ParserBounds (feedAll fragments (freshParser isResp zeroBody memory)) :=
  (bounded_feedAll fragments (bounded_freshParser isResp zeroBody memory)).parserBounds

end WorkflowModel.Http
