import WorkflowModel.Proof.HttpResume

/-!
# A message can be fed in any fragments

One call of `http_parser_append_message` on `f ++ t` does what a call on `f` followed, if that returned
0, by a call on `t` does. The resumption rules give this for the two loops; what is left is the frame
around them, and the count of consumed bytes. The count is right because a call that completes the
message never cuts it inside the bytes that earlier calls had asked to extend.
-/

namespace WorkflowModel.Http

open WorkflowModel Resume

/-- Everything but the scratch buffer for names and the capacity of the message buffer agrees. -/
def SameMessage (p q : HttpParser) : Prop :=
  q = { p with namebuf := q.namebuf, bufsize := q.bufsize }

def Same (p q : HttpParser) : Prop := SameScan p q ∧ p.msgbuf = q.msgbuf

theorem Same.sameMessage {p q : HttpParser} (h : Same p q) : SameMessage p q := by
  obtain ⟨⟨hq, -⟩, hmsg⟩ := h
  unfold SameMessage
  conv_lhs => rw [hq]
  rw [HttpParser.withBuffers, ← hmsg]

theorem same_refl (p : HttpParser) : Same p p := ⟨sameScan_refl p, rfl⟩

theorem Same.symm {p q : HttpParser} (h : Same p q) : Same q p :=
  ⟨sameScan_equivalence.symm h.1, h.2.symm⟩

theorem Same.trans {p q r : HttpParser} (h : Same p q) (h' : Same q r) : Same p r :=
  ⟨sameScan_equivalence.trans h.1 h'.1, h.2.trans h'.2⟩

/-- `p` with another message in its buffer. -/
def HttpParser.withMessage (p : HttpParser) (message : Bytes) : HttpParser :=
  { p with msgbuf := message }

theorem sameScan_withMessage (p : HttpParser) (message : Bytes) : SameScan p (p.withMessage message) :=
  ⟨rfl, fun _ => rfl⟩

theorem sameScan_appendBytes (p : HttpParser) (buf : Bytes) : SameScan p (appendBytes buf p) := by
  unfold appendBytes growBuffer
  dsimp only
  split_ifs
  · exact ⟨rfl, fun _ => rfl⟩
  · exact ⟨rfl, fun _ => rfl⟩

theorem appendBytes_msgbuf (p : HttpParser) (buf : Bytes) :
    (appendBytes buf p).msgbuf = p.msgbuf ++ buf := rfl

theorem parseHeaderStep_frame (p : HttpParser) (l : Bytes) :
    (parseHeaderStep p l).2.msgbuf = p.msgbuf ∧ (parseHeaderStep p l).2.complete = p.complete ∧
      (parseHeaderStep p l).2.isResp = p.isResp ∧ (parseHeaderStep p l).2.bufsize = p.bufsize := by
  have hmatch : ∀ name value, (matchMessageHeader name value p).msgbuf = p.msgbuf ∧
      (matchMessageHeader name value p).complete = p.complete ∧
      (matchMessageHeader name value p).isResp = p.isResp ∧
      (matchMessageHeader name value p).bufsize = p.bufsize := by
    intro name value
    unfold matchMessageHeader matchConnection matchExpect matchContentLength matchTransferEncoding
      httpParserAddHeader
    split <;> dsimp only <;> try split_ifs
    all_goals exact ⟨rfl, rfl, rfl, rfl⟩
  unfold parseHeaderStep
  split
  · unfold parseStartLine
    dsimp only
    split
    · exact ⟨rfl, rfl, rfl, rfl⟩
    · split
      · exact ⟨rfl, rfl, rfl, rfl⟩
      · exact ⟨rfl, rfl, rfl, rfl⟩
      · split
        · exact ⟨rfl, rfl, rfl, rfl⟩
        · cases hresp : p.isResp <;> exact ⟨rfl, rfl, hresp, rfl⟩
  · unfold parseHeaderValue
    dsimp only
    split
    · exact hmatch _ _
    · exact ⟨rfl, rfl, rfl, rfl⟩
    · exact ⟨rfl, rfl, rfl, rfl⟩
  · unfold parseHeaderName
    dsimp only
    split
    · exact ⟨rfl, rfl, rfl, rfl⟩
    · split <;> dsimp only <;> split_ifs <;> exact ⟨rfl, rfl, rfl, rfl⟩

theorem header_run_frame {p : HttpParser} {message : Bytes}
    (hp : headerMachine.Ready HeaderLive message p) :
    (headerMachine.run message p).2.msgbuf = p.msgbuf ∧
      (headerMachine.run message p).2.complete = p.complete ∧
      (headerMachine.run message p).2.isResp = p.isResp ∧
      (headerMachine.run message p).2.bufsize = p.bufsize := by
  refine Machine.run_preserves headerMachine_resumable
    (P := fun q => q.msgbuf = p.msgbuf ∧ q.complete = p.complete ∧ q.isResp = p.isResp ∧
      q.bufsize = p.bufsize) ?_ hp ⟨rfl, rfl, rfl, rfl⟩
  rintro q l ⟨hmsg, hcomplete, hresp, hsize⟩ -
  obtain ⟨hmsg', hcomplete', hresp', hsize'⟩ := parseHeaderStep_frame q l
  exact ⟨hmsg'.trans hmsg, hcomplete'.trans hcomplete, hresp'.trans hresp, hsize'.trans hsize⟩

theorem header_run_msgbuf {p : HttpParser} {message : Bytes}
    (hp : headerMachine.Ready HeaderLive message p) :
    (headerMachine.run message p).2.msgbuf = p.msgbuf :=
  (header_run_frame hp).1

theorem header_run_isResp {p : HttpParser} {message : Bytes}
    (hp : headerMachine.Ready HeaderLive message p) :
    (headerMachine.run message p).2.isResp = p.isResp :=
  (header_run_frame hp).2.2.1

theorem chunk_run_frame {p : HttpParser} {message : Bytes}
    (hp : chunkMachine.Ready ChunkLive message p) :
    ∃ state offset, (chunkMachine.run message p).2
      = { p with chunkState := state, chunkOffset := offset } := by
  refine Machine.run_preserves chunkMachine_resumable
    (P := fun q => ∃ state offset, q = { p with chunkState := state, chunkOffset := offset })
    ?_ hp ⟨_, _, rfl⟩
  rintro q l ⟨state, offset, rfl⟩ -
  exact ⟨_, _, parseChunkStep_frame _ l⟩

theorem parseHeaderStep_stop {p : HttpParser} {l : Bytes} {code : Int} (hp : HeaderLive p)
    (h : (parseHeaderStep p l).1 = .stop code) :
    (code = 1 ∧ (parseHeaderStep p l).2.headerState = .headerComplete) ∨ code = -2 := by
  rcases parseHeaderStep_cases l hp with ⟨hagain, -⟩ | ⟨hstop, hcomplete, -⟩ | ⟨hmore | hbad, -⟩
  · simp [hagain] at h
  · rw [hstop, Verdict.stop.injEq] at h
    exact Or.inl ⟨h.symm, hcomplete⟩
  · simp [hmore] at h
  · rw [hbad, Verdict.stop.injEq] at h
    exact Or.inr h.symm

theorem parseChunkStep_stop {p : HttpParser} {l : Bytes} {code : Int} (hp : ChunkLive p)
    (h : (parseChunkStep p l).1 = .stop code) : code = 1 ∨ code = -2 := by
  rcases parseChunkStep_cases l hp with ⟨hagain, -⟩ | ⟨hstop, -⟩ | ⟨hmore | hbad, -⟩
  · simp [hagain] at h
  · rw [hstop, Verdict.stop.injEq] at h
    exact Or.inl h.symm
  · simp [hmore] at h
  · rw [hbad, Verdict.stop.injEq] at h
    exact Or.inr h.symm

theorem header_run_cases {p : HttpParser} {message : Bytes}
    (hp : headerMachine.Ready HeaderLive message p) :
    (headerMachine.run message p).1 = .more ∨
    ((headerMachine.run message p).1 = .stop 1 ∧
      (headerMachine.run message p).2.headerState = .headerComplete) ∨
    (headerMachine.run message p).1 = .stop (-2) := by
  cases hrun : (headerMachine.run message p).1 with
  | again => exact absurd hrun Machine.run_ne_again
  | more => exact Or.inl rfl
  | stop code =>
      obtain ⟨q, l, hq, hstep⟩ := Machine.exists_step_of_run_stop headerMachine_resumable hp hrun
      rw [← hstep] at hrun ⊢
      rcases parseHeaderStep_stop hq hrun with ⟨rfl, hcomplete⟩ | rfl
      · exact Or.inr (Or.inl ⟨rfl, hcomplete⟩)
      · exact Or.inr (Or.inr rfl)

theorem chunk_run_cases {p : HttpParser} {message : Bytes}
    (hp : chunkMachine.Ready ChunkLive message p) :
    (chunkMachine.run message p).1 = .more ∨ (chunkMachine.run message p).1 = .stop 1 ∨
    (chunkMachine.run message p).1 = .stop (-2) := by
  cases hrun : (chunkMachine.run message p).1 with
  | again => exact absurd hrun Machine.run_ne_again
  | more => exact Or.inl rfl
  | stop code =>
      obtain ⟨q, l, hq, hstep⟩ := Machine.exists_step_of_run_stop chunkMachine_resumable hp hrun
      rw [← hstep] at hrun
      rcases parseChunkStep_stop hq hrun with rfl | rfl
      · exact Or.inr (Or.inl rfl)
      · exact Or.inr (Or.inr rfl)

theorem chunk_run_of_retOf {p : HttpParser} {message : Bytes}
    (hp : chunkMachine.Ready ChunkLive message p) :
    (retOf (chunkMachine.run message p).1 = 0 → (chunkMachine.run message p).1 = .more) ∧
    (retOf (chunkMachine.run message p).1 = 1 → (chunkMachine.run message p).1 = .stop 1) := by
  rcases chunk_run_cases hp with hrun | hrun | hrun <;> simp [hrun, retOf]

/-- How the body scan ends, before the bytes behind the message are given back: the code, the end of
the message when the code is 1, and the parser. -/
def bodyEnd (p : HttpParser) : Int × Nat × HttpParser :=
  if p.transferLength ≠ sizeMax then
    (if sizeAdd p.headerOffset p.transferLength ≤ p.msgsize then 1 else 0,
      sizeAdd p.headerOffset p.transferLength, p)
  else if !p.chunked then
    (0, 0, p)
  else if p.chunkState ≠ .chunkComplete then
    (retOf (chunkMachine.run p.msgbuf p).1, (chunkMachine.run p.msgbuf p).2.chunkOffset,
      (chunkMachine.run p.msgbuf p).2)
  else
    (1, p.chunkOffset, p)

def giveBack (n : Nat) (result : Int × Nat × HttpParser) : Int × Nat × HttpParser :=
  if result.1 ≤ 0 then (result.1, n, result.2.2) else endMessage result.2.1 n result.2.2

theorem parseBody_eq (n : Nat) (p : HttpParser) : parseBody n p = giveBack n (bodyEnd p) := by
  unfold parseBody bodyEnd giveBack
  dsimp only
  split_ifs with h1 h2 h3 h4 h5 <;> simp_all [parseChunk]

def BodyReady (p : HttpParser) : Prop :=
  p.transferLength = sizeMax → p.chunked = true → chunkMachine.Ready ChunkLive p.msgbuf p

def SameEnd (x y : Int × Nat × HttpParser) : Prop :=
  x.1 = y.1 ∧ (x.1 = 1 → x.2.1 = y.2.1) ∧ Same x.2.2 y.2.2

section Body

variable {p q : HttpParser}

theorem bodyEnd_of_length (h : p.transferLength ≠ sizeMax) :
    bodyEnd p = (if sizeAdd p.headerOffset p.transferLength ≤ p.msgsize then 1 else 0,
      sizeAdd p.headerOffset p.transferLength, p) := by
  simp [bodyEnd, h]

theorem bodyEnd_of_unknown (h : p.transferLength = sizeMax) (hchunked : p.chunked = false) :
    bodyEnd p = (0, 0, p) := by
  simp [bodyEnd, h, hchunked]

theorem bodyEnd_of_chunked (h : p.transferLength = sizeMax) (hchunked : p.chunked = true)
    (hlive : ChunkLive p) :
    bodyEnd p = (retOf (chunkMachine.run p.msgbuf p).1, (chunkMachine.run p.msgbuf p).2.chunkOffset,
      (chunkMachine.run p.msgbuf p).2) := by
  unfold ChunkLive at hlive
  simp [bodyEnd, h, hchunked, hlive]

theorem chunk_run_msgbuf {message : Bytes} (hp : chunkMachine.Ready ChunkLive message p) :
    (chunkMachine.run message p).2.msgbuf = p.msgbuf := by
  obtain ⟨state, offset, heq⟩ := chunk_run_frame hp
  rw [heq]

/-- The end of the message lies inside the buffer, which the scan does not touch. -/
theorem bodyEnd_inside (hp : BodyReady p) : (bodyEnd p).2.2.msgbuf = p.msgbuf ∧
    ((bodyEnd p).1 = 1 → (bodyEnd p).2.1 ≤ p.msgsize) := by
  by_cases hlength : p.transferLength = sizeMax
  · cases hchunked : p.chunked with
    | false => simp [bodyEnd_of_unknown hlength hchunked]
    | true =>
        have hready := hp hlength hchunked
        rw [bodyEnd_of_chunked hlength hchunked hready.1]
        refine ⟨chunk_run_msgbuf hready, fun hret => ?_⟩
        have hstop := (chunk_run_of_retOf hready).2 hret
        exact (Machine.offset_run_of_stop chunkMachine_resumable chunkMachine_reaches hready hstop).2
  · rw [bodyEnd_of_length hlength]
    refine ⟨rfl, ?_⟩
    dsimp only
    split_ifs with hle
    · exact fun _ => hle
    · simp

theorem bodyEnd_congr (h : Same p q) (hp : BodyReady p) : SameEnd (bodyEnd p) (bodyEnd q) := by
  have hlengthEq : q.transferLength = p.transferLength := by rw [h.1.1]; rfl
  have hchunkedEq : q.chunked = p.chunked := by rw [h.1.1]; rfl
  have hoffsetEq : q.headerOffset = p.headerOffset := by rw [h.1.1]; rfl
  have hsizeEq : q.msgsize = p.msgsize := by rw [HttpParser.msgsize, ← h.2]; rfl
  by_cases hlength : p.transferLength = sizeMax
  · cases hchunked : p.chunked with
    | false =>
        rw [bodyEnd_of_unknown hlength hchunked,
          bodyEnd_of_unknown (hlengthEq.trans hlength) (hchunkedEq.trans hchunked)]
        exact ⟨rfl, by simp, h⟩
    | true =>
        have hready := hp hlength hchunked
        have hready' := hready.of_rel chunkMachine_resumable h.1
        have hrun := Machine.run_congr chunkMachine_resumable h.1 hready
        rw [bodyEnd_of_chunked hlength hchunked hready.1,
          bodyEnd_of_chunked (hlengthEq.trans hlength) (hchunkedEq.trans hchunked) hready'.1, ← h.2]
        refine ⟨by rw [hrun.1], fun _ => chunkMachine_resumable.offset_eq hrun.2, hrun.2, ?_⟩
        simp only
        rw [chunk_run_msgbuf hready, chunk_run_msgbuf hready', h.2]
  · rw [bodyEnd_of_length hlength, bodyEnd_of_length (by rw [hlengthEq]; exact hlength), hlengthEq,
      hoffsetEq, hsizeEq]
    exact ⟨rfl, fun _ => rfl, h⟩

theorem BodyReady.withMessage_append (hp : BodyReady p) (tail : Bytes) :
    BodyReady (p.withMessage (p.msgbuf ++ tail)) := fun hlength hchunked =>
  (hp hlength hchunked).append tail |>.of_rel chunkMachine_resumable (sameScan_withMessage p _)

/-- A body that has come to an end, good or bad, is not changed by what follows it. -/
theorem bodyEnd_append_of_ne_zero (hp : BodyReady p) (tail : Bytes) (h : (bodyEnd p).1 ≠ 0) :
    (bodyEnd (p.withMessage (p.msgbuf ++ tail))).1 = (bodyEnd p).1 ∧
    ((bodyEnd p).1 = 1 → (bodyEnd (p.withMessage (p.msgbuf ++ tail))).2.1 = (bodyEnd p).2.1) ∧
    SameScan (bodyEnd p).2.2 (bodyEnd (p.withMessage (p.msgbuf ++ tail))).2.2 := by
  have hp' := hp.withMessage_append tail
  by_cases hlength : p.transferLength = sizeMax
  · cases hchunked : p.chunked with
    | false => simp [bodyEnd_of_unknown hlength hchunked] at h
    | true =>
        have hready := hp hlength hchunked
        have hready' := hp' hlength hchunked
        rw [bodyEnd_of_chunked hlength hchunked hready.1] at h ⊢
        rw [bodyEnd_of_chunked (p := p.withMessage (p.msgbuf ++ tail)) hlength hchunked hready'.1]
        have hrun := Machine.run_congr chunkMachine_resumable
          (sameScan_withMessage p (p.msgbuf ++ tail)) (hready.append tail)
        rw [Machine.run_append_of_stop chunkMachine_resumable tail hready (by
          intro hmore
          simp [hmore, retOf] at h)] at hrun
        exact ⟨by rw [hrun.1]; rfl, fun _ => (chunkMachine_resumable.offset_eq hrun.2).symm, hrun.2⟩
  · have hlength' : (p.withMessage (p.msgbuf ++ tail)).transferLength ≠ sizeMax := hlength
    rw [bodyEnd_of_length hlength] at h ⊢
    rw [bodyEnd_of_length hlength']
    refine ⟨?_, fun _ => rfl, sameScan_withMessage p _⟩
    dsimp only at h ⊢
    split_ifs at h with hle
    · rw [if_pos hle, if_pos]
      change _ ≤ (p.msgbuf ++ tail).length
      rw [List.length_append]
      exact Nat.le_add_right_of_le hle
    · exact absurd rfl h

theorem bodyEnd_append_of_zero (hp : BodyReady p) (tail : Bytes) (h : (bodyEnd p).1 = 0) :
    BodyReady (bodyEnd p).2.2 ∧
    SameEnd (bodyEnd (p.withMessage (p.msgbuf ++ tail)))
      (bodyEnd ((bodyEnd p).2.2.withMessage (p.msgbuf ++ tail))) := by
  by_cases hchunk : p.transferLength = sizeMax ∧ p.chunked = true
  · obtain ⟨hlength, hchunked⟩ := hchunk
    have hready := hp hlength hchunked
    have hready' := hp.withMessage_append tail hlength hchunked
    rw [bodyEnd_of_chunked hlength hchunked hready.1] at h ⊢
    rw [bodyEnd_of_chunked (p := p.withMessage (p.msgbuf ++ tail)) hlength hchunked hready'.1]
    have hmore := (chunk_run_of_retOf hready).1 h
    have hnext := Machine.ready_run_of_more chunkMachine_resumable hready hmore
    have hresume := Machine.run_append_of_more chunkMachine_resumable tail hready hmore
    have hbuffers := Machine.run_congr chunkMachine_resumable
      (sameScan_withMessage p (p.msgbuf ++ tail)) (hready.append tail)
    obtain ⟨state, offset, hframe⟩ := chunk_run_frame hready
    generalize hq : (chunkMachine.run p.msgbuf p).2 = q at hnext hresume hframe ⊢
    have hqlength : q.transferLength = sizeMax := by rw [hframe]; exact hlength
    have hqchunked : q.chunked = true := by rw [hframe]; exact hchunked
    have hqmsg : q.msgbuf = p.msgbuf := by rw [hframe]
    refine ⟨fun _ _ => hqmsg ▸ hnext, ?_⟩
    have hqready := (hnext.append tail).of_rel chunkMachine_resumable
      (sameScan_withMessage q (p.msgbuf ++ tail))
    have hqbuffers := Machine.run_congr chunkMachine_resumable
      (sameScan_withMessage q (p.msgbuf ++ tail)) (hnext.append tail)
    rw [bodyEnd_of_chunked (p := q.withMessage (p.msgbuf ++ tail)) hqlength hqchunked hqready.1]
    have hscan := sameScan_equivalence.trans (sameScan_equivalence.symm hbuffers.2)
      (sameScan_equivalence.trans hresume.2 hqbuffers.2)
    refine ⟨congrArg retOf (hbuffers.1.symm.trans (hresume.1.trans hqbuffers.1)),
      fun _ => chunkMachine_resumable.offset_eq hscan, hscan, ?_⟩
    exact (chunk_run_msgbuf hready').trans (chunk_run_msgbuf hqready).symm
  · have hsame : (bodyEnd p).2.2 = p := by
      by_cases hlength : p.transferLength = sizeMax
      · rw [bodyEnd_of_unknown hlength (by simpa [hlength] using hchunk)]
      · rw [bodyEnd_of_length hlength]
    rw [hsame]
    exact ⟨hp, rfl, fun _ => rfl, same_refl _⟩

/-- A body that needed more bytes does not end inside the ones it had. -/
theorem length_le_bodyEnd (hp : BodyReady p) (tail : Bytes) (h : (bodyEnd p).1 = 0)
    (hdone : (bodyEnd ((bodyEnd p).2.2.withMessage (p.msgbuf ++ tail))).1 = 1) :
    p.msgsize ≤ (bodyEnd ((bodyEnd p).2.2.withMessage (p.msgbuf ++ tail))).2.1 := by
  by_cases hlength : p.transferLength = sizeMax
  · cases hchunked : p.chunked with
    | false =>
        rw [bodyEnd_of_unknown hlength hchunked,
          bodyEnd_of_unknown (p := p.withMessage (p.msgbuf ++ tail)) hlength hchunked] at hdone
        simp at hdone
    | true =>
        have hready := hp hlength hchunked
        rw [bodyEnd_of_chunked hlength hchunked hready.1] at h hdone ⊢
        have hmore := (chunk_run_of_retOf hready).1 h
        have hnext := Machine.ready_run_of_more chunkMachine_resumable hready hmore
        have hreach := Machine.length_le_offset_run chunkMachine_resumable chunkMachine_reaches tail
          hready hmore
        obtain ⟨state, offset, hframe⟩ := chunk_run_frame hready
        generalize hq : (chunkMachine.run p.msgbuf p).2 = q at hnext hreach hframe hdone ⊢
        have hqlength : q.transferLength = sizeMax := by rw [hframe]; exact hlength
        have hqchunked : q.chunked = true := by rw [hframe]; exact hchunked
        have hqready := (hnext.append tail).of_rel chunkMachine_resumable
          (sameScan_withMessage q (p.msgbuf ++ tail))
        have hqbuffers := Machine.run_congr chunkMachine_resumable
          (sameScan_withMessage q (p.msgbuf ++ tail)) (hnext.append tail)
        rw [bodyEnd_of_chunked (p := q.withMessage (p.msgbuf ++ tail)) hqlength hqchunked hqready.1] at hdone ⊢
        have hstop : (chunkMachine.run (p.msgbuf ++ tail) q).1 = .stop 1 :=
          hqbuffers.1.trans ((chunk_run_of_retOf hqready).2 hdone)
        have := hreach hstop
        rw [chunkMachine_resumable.offset_eq hqbuffers.2] at this
        exact this
  · rw [bodyEnd_of_length hlength] at h ⊢
    rw [bodyEnd_of_length (p := p.withMessage (p.msgbuf ++ tail)) hlength]
    dsimp only at h ⊢
    split_ifs at h with hle
    · simp at h
    · change p.msgsize ≤ sizeAdd p.headerOffset p.transferLength
      omega

end Body

/-- How a call ends, before the bytes behind the message are given back. -/
def callEnd (p : HttpParser) : Int × Nat × HttpParser :=
  if p.headerState ≠ .headerComplete then
    if retOf (headerMachine.run p.msgbuf p).1 ≤ 0 then
      (retOf (headerMachine.run p.msgbuf p).1, 0, (headerMachine.run p.msgbuf p).2)
    else
      bodyEnd (startBody (headerMachine.run p.msgbuf p).2)
  else
    bodyEnd p

theorem parseBuffered_eq (n : Nat) (p : HttpParser) :
    parseBuffered n p = giveBack n (callEnd p) := by
  unfold parseBuffered callEnd
  simp only [parseMessageHeader, parseBody_eq]
  split_ifs with hheader hret
  · simp [giveBack, hret]
  · rfl
  · rfl

theorem append_eq {buf : Bytes} {p : HttpParser} (h : p.complete = false) :
    httpParserAppendMessage buf p = giveBack buf.length (callEnd (appendBytes buf p)) := by
  simp [httpParserAppendMessage, h, parseBuffered_eq]

structure CallReady (p : HttpParser) : Prop where
  header : p.headerOffset ≤ p.msgsize
  body : p.headerState = .headerComplete → BodyReady p

section Call

variable {p q : HttpParser}

theorem callEnd_of_header (h : HeaderLive p) : callEnd p =
    if retOf (headerMachine.run p.msgbuf p).1 ≤ 0 then
      (retOf (headerMachine.run p.msgbuf p).1, 0, (headerMachine.run p.msgbuf p).2)
    else
      bodyEnd (startBody (headerMachine.run p.msgbuf p).2) := by
  rw [callEnd, if_pos (show p.headerState ≠ .headerComplete from h)]

theorem callEnd_of_body (h : p.headerState = .headerComplete) : callEnd p = bodyEnd p := by
  simp [callEnd, h]

theorem callEnd_withMessage_of_body (message : Bytes) (h : p.headerState = .headerComplete) :
    callEnd (p.withMessage message) = bodyEnd (p.withMessage message) :=
  callEnd_of_body h

theorem CallReady.ready (hp : CallReady p) (h : HeaderLive p) :
    headerMachine.Ready HeaderLive p.msgbuf p :=
  ⟨h, hp.header⟩

theorem startBody_msgbuf : (startBody p).msgbuf = p.msgbuf := by
  unfold startBody
  split_ifs <;> rfl

theorem startBody_ready (h : p.headerOffset ≤ p.msgsize) : BodyReady (startBody p) := by
  intro _ hchunked
  unfold startBody at hchunked ⊢
  split_ifs at hchunked ⊢ with hc hl
  · exact ⟨by simp [ChunkLive], h⟩
  · exact absurd hchunked hc
  · exact absurd hchunked hc

theorem startBody_congr (h : SameScan p q) (hp : p.headerState = .headerComplete) :
    SameScan (startBody p) (startBody q) := by
  obtain ⟨hq, -⟩ := h
  have hnot : (startBody p).headerState ≠ .headerValue := by
    unfold startBody
    split_ifs <;> simp [hp]
  refine ⟨?_, fun hvalue => absurd hvalue hnot⟩
  have hchunked : q.chunked = p.chunked := by rw [hq]; rfl
  have hlength : q.transferLength = p.transferLength := by rw [hq]; rfl
  unfold startBody
  rw [hchunked, hlength]
  split_ifs
  · rw [hq]; rfl
  · rw [hq]; rfl
  · rw [hq]; rfl

theorem callEnd_of_more (h : HeaderLive p) (hrun : (headerMachine.run p.msgbuf p).1 = .more) :
    callEnd p = (0, 0, (headerMachine.run p.msgbuf p).2) := by
  simp [callEnd_of_header h, hrun, retOf]

theorem callEnd_of_stop (h : HeaderLive p) (hrun : (headerMachine.run p.msgbuf p).1 = .stop 1) :
    callEnd p = bodyEnd (startBody (headerMachine.run p.msgbuf p).2) := by
  simp [callEnd_of_header h, hrun, retOf]

theorem callEnd_of_bad (h : HeaderLive p) (hrun : (headerMachine.run p.msgbuf p).1 = .stop (-2)) :
    callEnd p = (-2, 0, (headerMachine.run p.msgbuf p).2) := by
  simp [callEnd_of_header h, hrun, retOf]

theorem header_run_inside (hp : CallReady p) (h : HeaderLive p)
    (hrun : (headerMachine.run p.msgbuf p).1 = .stop 1) :
    (headerMachine.run p.msgbuf p).2.headerOffset ≤ (headerMachine.run p.msgbuf p).2.msgsize := by
  have hready := hp.ready h
  have hoffset := Machine.offset_run_of_stop headerMachine_resumable headerMachine_reaches hready hrun
  rw [HttpParser.msgsize, header_run_msgbuf hready]
  exact hoffset.2

theorem callEnd_of_agree (hp : CallReady p) (hq : CallReady q) (hlive : HeaderLive p)
    (hlive' : HeaderLive q) (hmsg : p.msgbuf = q.msgbuf)
    (h : Agree SameScan (headerMachine.run p.msgbuf p) (headerMachine.run q.msgbuf q)) :
    SameEnd (callEnd p) (callEnd q) := by
  have hmsg' : (headerMachine.run p.msgbuf p).2.msgbuf = (headerMachine.run q.msgbuf q).2.msgbuf := by
    rw [header_run_msgbuf (hp.ready hlive), header_run_msgbuf (hq.ready hlive'), hmsg]
  rcases header_run_cases (hp.ready hlive) with hrun | ⟨hrun, hcomplete⟩ | hrun
  · rw [callEnd_of_more hlive hrun, callEnd_of_more hlive' (h.1.symm.trans hrun)]
    exact ⟨rfl, by simp, h.2, hmsg'⟩
  · rw [callEnd_of_stop hlive hrun, callEnd_of_stop hlive' (h.1.symm.trans hrun)]
    refine bodyEnd_congr ⟨startBody_congr h.2 hcomplete, ?_⟩
      (startBody_ready (header_run_inside hp hlive hrun))
    rw [startBody_msgbuf, startBody_msgbuf, hmsg']
  · rw [callEnd_of_bad hlive hrun, callEnd_of_bad hlive' (h.1.symm.trans hrun)]
    exact ⟨rfl, by simp, h.2, hmsg'⟩

theorem SameEnd.symm {x y : Int × Nat × HttpParser} (h : SameEnd x y) : SameEnd y x :=
  ⟨h.1.symm, fun hone => (h.2.1 (h.1.trans hone)).symm, h.2.2.symm⟩

theorem SameEnd.trans {x y z : Int × Nat × HttpParser} (h : SameEnd x y) (h' : SameEnd y z) :
    SameEnd x z :=
  ⟨h.1.trans h'.1, fun hone => (h.2.1 hone).trans (h'.2.1 (h.1.symm.trans hone)), h.2.2.trans h'.2.2⟩

theorem CallReady.withMessage_append (hp : CallReady p) (tail : Bytes) :
    CallReady (p.withMessage (p.msgbuf ++ tail)) where
  header := by
    have := hp.header
    change p.headerOffset ≤ (p.msgbuf ++ tail).length
    rw [List.length_append]
    exact Nat.le_add_right_of_le this
  body := fun h => (hp.body h).withMessage_append tail

theorem CallReady.of_same (hp : CallReady p) (h : Same p q) : CallReady q := by
  have hstate : q.headerState = p.headerState := by rw [h.1.1]; rfl
  have hoffset : q.headerOffset = p.headerOffset := by rw [h.1.1]; rfl
  have hlength : q.transferLength = p.transferLength := by rw [h.1.1]; rfl
  have hchunked : q.chunked = p.chunked := by rw [h.1.1]; rfl
  refine ⟨?_, fun hq hql hqc => ?_⟩
  · rw [hoffset, HttpParser.msgsize, ← h.2]
    exact hp.header
  · rw [← h.2]
    exact (hp.body (hstate ▸ hq) (hlength ▸ hql) (hchunked ▸ hqc)).of_rel chunkMachine_resumable h.1

theorem callEnd_congr (h : Same p q) (hp : CallReady p) : SameEnd (callEnd p) (callEnd q) := by
  have hq := hp.of_same h
  have hstate : q.headerState = p.headerState := by rw [h.1.1]; rfl
  by_cases hlive : HeaderLive p
  · refine callEnd_of_agree hp hq hlive (by rw [HeaderLive, hstate]; exact hlive) h.2 ?_
    rw [← h.2]
    exact Machine.run_congr headerMachine_resumable h.1 (hp.ready hlive)
  · have hcomplete : p.headerState = .headerComplete := not_not.mp hlive
    rw [callEnd_of_body hcomplete, callEnd_of_body (hstate.trans hcomplete)]
    exact bodyEnd_congr h (hp.body hcomplete)

theorem bodyEnd_frame (hp : BodyReady p) :
    ∃ state offset, (bodyEnd p).2.2 = { p with chunkState := state, chunkOffset := offset } := by
  by_cases hchunk : p.transferLength = sizeMax ∧ p.chunked = true
  · have hready := hp hchunk.1 hchunk.2
    rw [bodyEnd_of_chunked hchunk.1 hchunk.2 hready.1]
    exact chunk_run_frame hready
  · by_cases hlength : p.transferLength = sizeMax
    · rw [bodyEnd_of_unknown hlength (by simpa [hlength] using hchunk)]
      exact ⟨_, _, rfl⟩
    · rw [bodyEnd_of_length hlength]
      exact ⟨_, _, rfl⟩

theorem bodyEnd_headerState (hp : BodyReady p) :
    (bodyEnd p).2.2.headerState = p.headerState := by
  obtain ⟨state, offset, hframe⟩ := bodyEnd_frame hp
  rw [hframe]

theorem bodyEnd_headerOffset (hp : BodyReady p) :
    (bodyEnd p).2.2.headerOffset = p.headerOffset := by
  obtain ⟨state, offset, hframe⟩ := bodyEnd_frame hp
  rw [hframe]

theorem startBody_headerOffset : (startBody p).headerOffset = p.headerOffset := by
  unfold startBody
  split_ifs <;> rfl

theorem startBody_headerState : (startBody p).headerState = p.headerState := by
  unfold startBody
  split_ifs <;> rfl

theorem header_run_append_of_stop (hp : CallReady p) (hlive : HeaderLive p) (tail : Bytes)
    (hrun : (headerMachine.run p.msgbuf p).1 ≠ .more) :
    Agree SameScan (headerMachine.run p.msgbuf p)
      (headerMachine.run (p.msgbuf ++ tail) (p.withMessage (p.msgbuf ++ tail))) := by
  have hbuffers := Machine.run_congr headerMachine_resumable
    (sameScan_withMessage p (p.msgbuf ++ tail)) ((hp.ready hlive).append tail)
  rw [Machine.run_append_of_stop headerMachine_resumable tail (hp.ready hlive) hrun] at hbuffers
  exact hbuffers

/-- With the header found in the shorter message, a longer one differs from it in the body only. -/
theorem callEnd_append_of_stop (hp : CallReady p) (hlive : HeaderLive p) (tail : Bytes)
    (hrun : (headerMachine.run p.msgbuf p).1 = .stop 1) :
    SameEnd (bodyEnd ((startBody (headerMachine.run p.msgbuf p).2).withMessage (p.msgbuf ++ tail)))
      (callEnd (p.withMessage (p.msgbuf ++ tail))) := by
  have hagree := header_run_append_of_stop hp hlive tail (by rw [hrun]; simp)
  have hp' := hp.withMessage_append tail
  have hmsg := header_run_msgbuf (hp.ready hlive)
  have hmsg' := header_run_msgbuf (hp'.ready hlive)
  have hcomplete : (headerMachine.run p.msgbuf p).2.headerState = .headerComplete := by
    rcases header_run_cases (hp.ready hlive) with hmore | ⟨-, hcomplete⟩ | hbad
    · simp [hmore] at hrun
    · exact hcomplete
    · simp [hbad] at hrun
  rw [callEnd_of_stop (p := p.withMessage (p.msgbuf ++ tail)) hlive (hagree.1.symm.trans hrun)]
  refine bodyEnd_congr ⟨?_, ?_⟩ ?_
  · exact sameScan_equivalence.trans (sameScan_equivalence.symm (sameScan_withMessage _ _))
      (startBody_congr hagree.2 hcomplete)
  · rw [startBody_msgbuf]
    exact hmsg'.symm
  · have hready := startBody_ready (header_run_inside hp hlive hrun)
    have := hready.withMessage_append tail
    rwa [startBody_msgbuf, hmsg] at this

theorem callEnd_append_of_ne_zero (hp : CallReady p) (tail : Bytes) (h : (callEnd p).1 ≠ 0) :
    (callEnd (p.withMessage (p.msgbuf ++ tail))).1 = (callEnd p).1 ∧
    ((callEnd p).1 = 1 → (callEnd (p.withMessage (p.msgbuf ++ tail))).2.1 = (callEnd p).2.1 ∧
      SameScan (callEnd p).2.2 (callEnd (p.withMessage (p.msgbuf ++ tail))).2.2) := by
  by_cases hlive : HeaderLive p
  · rcases header_run_cases (hp.ready hlive) with hrun | ⟨hrun, -⟩ | hrun
    · simp [callEnd_of_more hlive hrun] at h
    · have hready := startBody_ready (header_run_inside hp hlive hrun)
      have hmsg : (startBody (headerMachine.run p.msgbuf p).2).msgbuf = p.msgbuf :=
        startBody_msgbuf.trans (header_run_msgbuf (hp.ready hlive))
      have hsame := callEnd_append_of_stop hp hlive tail hrun
      rw [callEnd_of_stop hlive hrun] at h ⊢
      have hbody := bodyEnd_append_of_ne_zero hready tail h
      rw [hmsg] at hbody
      refine ⟨hsame.1.symm.trans hbody.1, fun hone => ⟨?_, ?_⟩⟩
      · exact (hsame.2.1 (hbody.1.trans hone)).symm.trans (hbody.2.1 hone)
      · exact sameScan_equivalence.trans hbody.2.2 hsame.2.2.1
    · have hagree := header_run_append_of_stop hp hlive tail (by rw [hrun]; simp)
      rw [callEnd_of_bad hlive hrun,
        callEnd_of_bad (p := p.withMessage (p.msgbuf ++ tail)) hlive (hagree.1.symm.trans hrun)]
      exact ⟨rfl, by simp⟩
  · have hcomplete : p.headerState = .headerComplete := not_not.mp hlive
    rw [callEnd_of_body hcomplete] at h ⊢
    rw [callEnd_withMessage_of_body _ hcomplete]
    have hbody := bodyEnd_append_of_ne_zero (hp.body hcomplete) tail h
    exact ⟨hbody.1, fun hone => ⟨hbody.2.1 hone, hbody.2.2⟩⟩

theorem callEnd_append_of_zero (hp : CallReady p) (tail : Bytes) (h : (callEnd p).1 = 0) :
    CallReady (callEnd p).2.2 ∧ (callEnd p).2.2.msgbuf = p.msgbuf ∧
    SameEnd (callEnd (p.withMessage (p.msgbuf ++ tail)))
      (callEnd ((callEnd p).2.2.withMessage (p.msgbuf ++ tail))) := by
  by_cases hlive : HeaderLive p
  · have hready := hp.ready hlive
    rcases header_run_cases hready with hrun | ⟨hrun, hcomplete⟩ | hrun
    · rw [callEnd_of_more hlive hrun]
      have hnext := Machine.ready_run_of_more headerMachine_resumable hready hrun
      have hresume := Machine.run_append_of_more headerMachine_resumable tail hready hrun
      have hmsg := header_run_msgbuf hready
      have hbuffers := Machine.run_congr headerMachine_resumable
        (sameScan_withMessage p (p.msgbuf ++ tail)) (hready.append tail)
      generalize (headerMachine.run p.msgbuf p).2 = q at hnext hresume hmsg ⊢
      have hqbuffers := Machine.run_congr headerMachine_resumable
        (sameScan_withMessage q (p.msgbuf ++ tail)) (hnext.append tail)
      have hq : CallReady q := by
        refine ⟨?_, fun hcomplete => absurd hcomplete hnext.1⟩
        rw [HttpParser.msgsize, hmsg]
        exact hnext.2
      refine ⟨hq, hmsg, ?_⟩
      have hq' := hq.withMessage_append tail
      rw [hmsg] at hq'
      refine callEnd_of_agree (hp.withMessage_append tail) hq' hlive hnext.1 rfl ?_
      exact ⟨hbuffers.1.symm.trans (hresume.1.trans hqbuffers.1),
        sameScan_equivalence.trans (sameScan_equivalence.symm hbuffers.2)
          (sameScan_equivalence.trans hresume.2 hqbuffers.2)⟩
    · have hbodyReady := startBody_ready (header_run_inside hp hlive hrun)
      have hmsg : (startBody (headerMachine.run p.msgbuf p).2).msgbuf = p.msgbuf :=
        startBody_msgbuf.trans (header_run_msgbuf hready)
      have hsame := callEnd_append_of_stop hp hlive tail hrun
      have hstate := (bodyEnd_headerState hbodyReady).trans (startBody_headerState.trans hcomplete)
      have hinside := (bodyEnd_inside hbodyReady).1
      rw [callEnd_of_stop hlive hrun] at h ⊢
      have hbody := bodyEnd_append_of_zero hbodyReady tail h
      rw [hmsg] at hbody hinside
      have hoffset : (bodyEnd (startBody (headerMachine.run p.msgbuf p).2)).2.2.headerOffset
          ≤ (bodyEnd (startBody (headerMachine.run p.msgbuf p).2)).2.2.msgsize := by
        have := header_run_inside hp hlive hrun
        rw [HttpParser.msgsize, header_run_msgbuf hready] at this
        rw [bodyEnd_headerOffset hbodyReady, startBody_headerOffset, HttpParser.msgsize, hinside]
        exact this
      refine ⟨⟨hoffset, fun _ => hbody.1⟩, hinside, ?_⟩
      rw [callEnd_withMessage_of_body _ hstate]
      exact hsame.symm.trans hbody.2
    · simp [callEnd_of_bad hlive hrun] at h
  · have hcomplete : p.headerState = .headerComplete := not_not.mp hlive
    have hready := hp.body hcomplete
    have hstate := (bodyEnd_headerState hready).trans hcomplete
    rw [callEnd_of_body hcomplete] at h ⊢
    rw [callEnd_withMessage_of_body _ hcomplete, callEnd_withMessage_of_body _ hstate]
    have hbody := bodyEnd_append_of_zero hready tail h
    have hinside := (bodyEnd_inside hready).1
    have hoffset : (bodyEnd p).2.2.headerOffset ≤ (bodyEnd p).2.2.msgsize := by
      rw [bodyEnd_headerOffset hready, HttpParser.msgsize, hinside]
      exact hp.header
    exact ⟨⟨hoffset, fun _ => hbody.1⟩, hinside, hbody.2⟩

end Call

end WorkflowModel.Http
