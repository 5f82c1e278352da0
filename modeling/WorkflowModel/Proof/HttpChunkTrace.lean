import WorkflowModel.Proof.HttpFraming

/-!
# What the chunk loop steps over

Each round of `__parse_chunk` that moves on has stepped over one chunk, over the last size line or over
a trailer line. The steps of all calls on one message are recorded in order. The invariant between two
calls is that the recorded steps spell the bytes between the header and `chunk_offset`; so after the
call that returns 1 they spell the whole body.
-/

namespace WorkflowModel.Http

open WorkflowModel Resume

/-- A chunk with data: its size line without the line end, where the data starts in the buffer, the
data, and the two bytes behind the data that the offset arithmetic skips. -/
structure SteppedChunk where
  line : Bytes
  start : Nat
  data : Bytes
  skipped : Bytes
  deriving DecidableEq, Repr

inductive Stepped where
  | chunk (c : SteppedChunk)
  | last (line : Bytes)
  | trailer (line : Bytes)
  deriving DecidableEq, Repr

def Stepped.bytes : Stepped → Bytes
  | .chunk c => c.line ++ crlf ++ c.data ++ c.skipped
  | .last line => line ++ crlf
  | .trailer line => line ++ crlf

/-- What one round of the loop steps over; nothing when it asks for more or fails. -/
def stepped (p : HttpParser) (ptr : Bytes) : List Stepped :=
  match p.chunkState with
  | .chunkData =>
      match scanLine httpChunkLineMax false [] ptr with
      | .line line =>
          let size := (strtol 16 line).1.toNat
          match chunkLine line ptr with
          | .last => [.last line]
          | .chunk _ =>
              [.chunk { line := line
                        start := p.chunkOffset + (line.length + 2)
                        data := (ptr.drop (line.length + 2)).take size
                        skipped := (ptr.drop (line.length + 2 + size)).take 2 }]
          | _ => []
      | _ => []
  | _ =>
      match scanLine httpTrailerLineMax false [] ptr with
      | .line line => [.trailer line]
      | _ => []

def bodySteps (p : HttpParser) : List Stepped :=
  if p.transferLength = sizeMax ∧ p.chunked ∧ p.chunkState ≠ .chunkComplete then
    chunkMachine.trace stepped p.msgbuf p
  else
    []

def callSteps (p : HttpParser) : List Stepped :=
  if p.headerState ≠ .headerComplete then
    if retOf (headerMachine.run p.msgbuf p).1 ≤ 0 then []
    else bodySteps (startBody (headerMachine.run p.msgbuf p).2)
  else
    bodySteps p

def appendSteps (buf : Bytes) (p : HttpParser) : List Stepped :=
  if p.complete then [] else callSteps (appendBytes buf p)

/-- The steps of the calls that `feed` makes. -/
def feedSteps : List Bytes → HttpParser → List Stepped
  | [], _ => []
  | fragment :: rest, p =>
      appendSteps fragment p ++
        if (httpParserAppendMessage fragment p).1 ≠ 0 then []
        else feedSteps rest (httpParserAppendMessage fragment p).2.2

structure SteppedChunk.Accepted (c : SteppedChunk) : Prop where
  line : charCr ∉ c.line
  digits : (strtol 16 c.line).2 ≠ 0
  size : (strtol 16 c.line).1 = c.data.length
  nonempty : c.data ≠ []
  small : c.data.length < chunkSizeMax
  skipped : c.skipped.length = 2

inductive StepsOver : ChunkState → Nat → Stepped → ChunkState → Prop
  | chunk {offset : Nat} {c : SteppedChunk} (accepted : c.Accepted)
      (start : c.start = offset + (c.line.length + 2)) :
      StepsOver .chunkData offset (.chunk c) .chunkData
  | last {offset : Nat} {line : Bytes} (hline : charCr ∉ line) (digits : (strtol 16 line).2 ≠ 0)
      (size : (strtol 16 line).1 = 0) : StepsOver .chunkData offset (.last line) .trailerPart
  | trailer {offset : Nat} {line : Bytes} (hline : charCr ∉ line) (nonempty : line ≠ []) :
      StepsOver .trailerPart offset (.trailer line) .trailerPart
  | finish {offset : Nat} : StepsOver .trailerPart offset (.trailer []) .chunkComplete

def Path : ChunkState → Nat → List Stepped → ChunkState → Nat → Prop
  | s, i, [], t, j => s = t ∧ i = j
  | s, i, x :: steps, t, j => ∃ u, StepsOver s i x u ∧ Path u (i + x.bytes.length) steps t j

def spelled (steps : List Stepped) : Bytes := steps.flatMap Stepped.bytes

@[simp] theorem spelled_nil : spelled [] = [] := rfl

@[simp] theorem spelled_cons (x : Stepped) (steps : List Stepped) :
    spelled (x :: steps) = x.bytes ++ spelled steps := rfl

@[simp] theorem spelled_append (steps more : List Stepped) :
    spelled (steps ++ more) = spelled steps ++ spelled more := by
  simp [spelled]

theorem path_snoc {s t u : ChunkState} {x : Stepped} :
    ∀ {steps : List Stepped} {i j : Nat}, Path s i steps t j → StepsOver t j x u →
      Path s i (steps ++ [x]) u (j + x.bytes.length) := by
  intro steps
  induction steps generalizing s with
  | nil =>
      rintro i j ⟨rfl, rfl⟩ hx
      exact ⟨u, hx, rfl, rfl⟩
  | cons y steps ih =>
      rintro i j ⟨v, hy, hsteps⟩ hx
      exact ⟨v, hy, ih hsteps hx⟩

theorem Path.offset_eq {s t : ChunkState} :
    ∀ {steps : List Stepped} {i j : Nat}, Path s i steps t j → j = i + (spelled steps).length := by
  intro steps
  induction steps generalizing s with
  | nil =>
      rintro i j ⟨-, rfl⟩
      simp
  | cons y steps ih =>
      rintro i j ⟨v, -, hsteps⟩
      rw [ih hsteps, spelled_cons, List.length_append, Nat.add_assoc]

theorem strtol_range (base : Nat) (s : Bytes) :
    longMin ≤ (strtol base s).1 ∧ (strtol base s).1 ≤ longMax := by
  have hmin : longMin ≤ 0 := by decide
  have hmax : 0 ≤ longMax := by decide
  unfold strtol
  dsimp only
  split_ifs
  · exact ⟨hmin, hmax⟩
  · exact ⟨le_max_left _ _, max_le (by decide) (by omega)⟩
  · exact ⟨hmin.trans (le_min hmax (by omega)), min_le_left _ _⟩

/-- The size that a chunk line of an accepted chunk denotes. -/
theorem size_of_chunkLine {line ptr : Bytes} {length : Nat} (h : chunkLine line ptr = .chunk length) :
    (strtol 16 line).2 ≠ 0 ∧ (strtol 16 line).1 = (strtol 16 line).1.toNat ∧
      (strtol 16 line).1.toNat ≠ 0 ∧ (strtol 16 line).1.toNat < chunkSizeMax ∧
      length = (strtol 16 line).1.toNat + (line.length + 4) ∧ length ≤ ptr.length := by
  have hlength := length_of_chunkLine h
  obtain ⟨hlow, hhigh⟩ := strtol_range 16 line
  unfold chunkLine at h
  split_ifs at h with hdigits hzero hmax hlen
  simp only [ChunkLine.chunk.injEq] at h
  generalize (strtol 16 line).1 = value at hlow hhigh hzero hmax hlen h ⊢
  -- a negative size is a huge one after the conversion to `unsigned long`
  have hpositive : 0 ≤ value := by
    by_contra hneg
    unfold sizeOfInt sizeModulus chunkSizeMax httpChunkLineMax at hmax
    unfold longMin at hlow
    omega
  have hsmall : value.toNat < chunkSizeMax := by
    unfold longMax at hhigh
    unfold sizeOfInt sizeModulus at hmax
    unfold chunkSizeMax httpChunkLineMax at hmax ⊢
    omega
  exact ⟨hdigits, by omega, by omega, hsmall, h.symm, hlength.1⟩

theorem chunk_of_chunkLine {line rest : Bytes} {length : Nat} (hline : charCr ∉ line)
    (h : chunkLine line (line ++ charCr :: charLf :: rest) = .chunk length) (offset : Nat) :
    let size := (strtol 16 line).1.toNat
    let c : SteppedChunk :=
      { line := line
        start := offset + (line.length + 2)
        data := rest.take size
        skipped := (rest.drop size).take 2 }
    c.Accepted ∧ (∃ tail, line ++ charCr :: charLf :: rest = (Stepped.chunk c).bytes ++ tail) ∧
      length = (Stepped.chunk c).bytes.length := by
  intro size c
  obtain ⟨hdigits, hsize, hpositive, hsmall, hlength, hfits⟩ := size_of_chunkLine h
  have hrest : size + 2 ≤ rest.length := by
    simp only [List.length_append, List.length_cons] at hfits
    omega
  have hdata : c.data.length = size := List.length_take_of_le (by omega)
  have hskipped : c.skipped.length = 2 := by
    apply List.length_take_of_le
    rw [List.length_drop]
    omega
  refine ⟨⟨hline, hdigits, ?_, ?_, ?_, hskipped⟩, ⟨(rest.drop size).drop 2, ?_⟩, ?_⟩
  · rw [hdata]
    exact hsize
  · rw [← List.length_pos_iff, hdata]
    omega
  · rw [hdata]
    exact hsmall
  · calc line ++ charCr :: charLf :: rest
        = line ++ crlf ++ (rest.take size ++ ((rest.drop size).take 2 ++ (rest.drop size).drop 2)) := by
          rw [List.take_append_drop, List.take_append_drop, List.append_assoc]
          rfl
      _ = (Stepped.chunk c).bytes ++ (rest.drop size).drop 2 := by
          simp only [Stepped.bytes, List.append_assoc, c]
  · simp only [Stepped.bytes, List.length_append, hdata, hskipped]
    rw [hlength]
    change size + (line.length + 4) = line.length + 2 + size + 2
    omega

/-- What a round does: it leaves the parser alone, or it moves over one step. -/
theorem stepped_cases {p : HttpParser} (ptr : Bytes) (hp : ChunkLive p) :
    (stepped p ptr = [] ∧ (parseChunkStep p ptr).2 = p) ∨
    ∃ x state tail, stepped p ptr = [x] ∧ ptr = x.bytes ++ tail ∧
      StepsOver p.chunkState p.chunkOffset x state ∧ (parseChunkStep p ptr).2
        = { p with chunkState := state, chunkOffset := p.chunkOffset + x.bytes.length } := by
  cases hstate : p.chunkState with
  | chunkComplete => exact absurd hstate hp
  | chunkData =>
      rw [parseChunkStep_chunkData ptr hstate]
      cases hscan : scanLine httpChunkLineMax false [] ptr with
      | more => exact Or.inl (by simp [stepped, hstate, hscan, parseChunkData])
      | bad => exact Or.inl (by simp [stepped, hstate, hscan, parseChunkData])
      | line line =>
          obtain ⟨body, rest, rfl, hbody, -, hcr, -⟩ :=
            (scanLine_eq_line_iff (Nat.zero_le _)).mp hscan
          rw [List.nil_append] at hbody
          subst hbody
          rw [parseChunkData_of_line p hscan]
          cases hline : chunkLine line (line ++ charCr :: charLf :: rest) with
          | bad => exact Or.inl (by simp [stepped, hstate, hscan, hline])
          | short => exact Or.inl (by simp [stepped, hstate, hscan, hline])
          | last =>
              obtain ⟨hdigits, hzero⟩ : (strtol 16 line).2 ≠ 0 ∧ (strtol 16 line).1 = 0 := by
                unfold chunkLine at hline
                split_ifs at hline with hdigits hzero
                exact ⟨hdigits, hzero⟩
              refine Or.inr ⟨.last line, .trailerPart, rest, by simp [stepped, hstate, hscan, hline],
                by simp [Stepped.bytes, crlf], .last hcr hdigits hzero, ?_⟩
              simp [Stepped.bytes, crlf]
          | chunk length =>
              obtain ⟨haccepted, ⟨tail, htail⟩, hlength⟩ :=
                chunk_of_chunkLine hcr hline p.chunkOffset
              refine Or.inr ⟨_, .chunkData, tail, ?_, htail, .chunk haccepted rfl, ?_⟩
              · have hdrop : (line ++ charCr :: charLf :: rest).drop (line.length + 2) = rest := by
                  rw [← List.drop_drop, List.drop_left]
                  rfl
                simp only [stepped, hstate, hscan, hline, hdrop, ← List.drop_drop]
              · simp [hlength, hstate]
  | trailerPart =>
      rw [parseChunkStep_trailerPart ptr hstate]
      cases hscan : scanLine httpTrailerLineMax false [] ptr with
      | more => exact Or.inl (by simp [stepped, hstate, hscan])
      | bad => exact Or.inl (by simp [stepped, hstate, hscan])
      | line line =>
          obtain ⟨body, rest, rfl, hbody, -, hcr, -⟩ :=
            (scanLine_eq_line_iff (Nat.zero_le _)).mp hscan
          rw [List.nil_append] at hbody
          subst hbody
          have hbytes : line ++ charCr :: charLf :: rest = (Stepped.trailer line).bytes ++ rest := by
            simp [Stepped.bytes, crlf]
          have hstepped : stepped p (line ++ charCr :: charLf :: rest) = [.trailer line] := by
            simp [stepped, hstate, hscan]
          by_cases hempty : line.length = 0
          · obtain rfl : line = [] := List.eq_nil_of_length_eq_zero hempty
            exact Or.inr ⟨_, .chunkComplete, rest, hstepped, hbytes, .finish, by
              simp [Stepped.bytes, crlf]⟩
          · exact Or.inr ⟨_, .trailerPart, rest, hstepped, hbytes,
              .trailer hcr (fun hnil => hempty (by rw [hnil]; rfl)), by
                simp [Stepped.bytes, crlf, hempty, hstate]⟩

/-- The steps lead from `start` to where the loop stands, over the bytes that they spell. -/
def OnPath (message : Bytes) (start : Nat) (steps : List Stepped) (p : HttpParser) : Prop :=
  Path .chunkData start steps p.chunkState p.chunkOffset ∧
    ∃ tail, message.drop start = spelled steps ++ tail

section Run

variable {message : Bytes} {start : Nat} {steps : List Stepped} {p : HttpParser}

theorem onPath_step (hp : chunkMachine.Ready ChunkLive message p)
    (h : OnPath message start steps p) :
    OnPath message start (steps ++ stepped p (message.drop p.chunkOffset))
      (parseChunkStep p (message.drop p.chunkOffset)).2 := by
  obtain ⟨hpath, tail, htail⟩ := h
  have hdrop : message.drop p.chunkOffset = tail := by
    rw [hpath.offset_eq, ← List.drop_drop, htail, List.drop_left]
  rcases stepped_cases (message.drop p.chunkOffset) hp.1 with ⟨hnone, hsame⟩ |
    ⟨x, state, rest, hone, hbytes, hover, hnext⟩
  · rw [hnone, hsame, List.append_nil]
    exact ⟨hpath, tail, htail⟩
  · rw [hone, hnext]
    refine ⟨path_snoc hpath hover, rest, ?_⟩
    rw [hdrop] at hbytes
    rw [htail, hbytes, spelled_append, spelled_cons, spelled_nil, List.append_nil,
      List.append_assoc]

theorem onPath_run (hp : chunkMachine.Ready ChunkLive message p)
    (h : OnPath message start steps p) :
    OnPath message start (steps ++ chunkMachine.trace stepped message p)
      (chunkMachine.run message p).2 :=
  Machine.trace_preserves chunkMachine_resumable
    (P := fun seen q => OnPath message start seen q)
    (fun _ _ hready hseen => onPath_step hready hseen) hp h

theorem chunkComplete_of_run (hp : chunkMachine.Ready ChunkLive message p)
    (h : (chunkMachine.run message p).1 = .stop 1) :
    (chunkMachine.run message p).2.chunkState = .chunkComplete := by
  obtain ⟨q, l, hq, hstep⟩ := Machine.exists_step_of_run_stop chunkMachine_resumable hp h
  rw [← hstep] at h ⊢
  change (parseChunkStep q l).1 = _ at h
  have hverdict : ∀ ret : Int, verdictOf ret ≠ .stop 1 := by
    intro ret
    unfold verdictOf
    split_ifs <;> (simp; try omega)
  change (parseChunkStep q l).2.chunkState = _
  unfold parseChunkStep at h ⊢
  split at h
  · exact absurd h (hverdict _)
  · rename_i hstate
    dsimp only at h ⊢
    split_ifs at h with hcomplete
    · rw [if_pos hcomplete]
      exact hcomplete
    · exact absurd h (hverdict _)

end Run

structure Walked (steps : List Stepped) (p : HttpParser) : Prop where
  header : HeaderLive p → steps = []
  known : p.headerState = .headerComplete → p.transferLength ≠ sizeMax → steps = []
  body : p.headerState = .headerComplete → p.transferLength = sizeMax → p.chunked = true →
    OnPath p.msgbuf p.headerOffset steps p

section Call

variable {steps : List Stepped} {p : HttpParser}

theorem Walked.bodyEnd (h : Walked steps p) (hcomplete : p.headerState = .headerComplete)
    (hp : BodyReady p) : Walked (steps ++ bodySteps p) (bodyEnd p).2.2 := by
  by_cases hlength : p.transferLength = sizeMax
  · cases hchunked : p.chunked with
    | false =>
        rw [bodyEnd_of_unknown hlength hchunked, bodySteps, if_neg (by simp [hchunked]),
          List.append_nil]
        exact h
    | true =>
        have hready := hp hlength hchunked
        obtain ⟨state, offset, hframe⟩ := chunk_run_frame hready
        have hpath := onPath_run hready (h.body hcomplete hlength hchunked)
        rw [bodyEnd_of_chunked hlength hchunked hready.1, bodySteps,
          if_pos ⟨hlength, hchunked, hready.1⟩]
        dsimp only
        rw [hframe] at hpath ⊢
        exact ⟨fun hlive => absurd hcomplete hlive, fun _ hknown => absurd hlength hknown,
          fun _ _ _ => hpath⟩
  · rw [bodyEnd_of_length hlength, bodySteps, if_neg (by simp [hlength]), List.append_nil]
    exact h

theorem walked_startBody : Walked [] (startBody p) := by
  refine ⟨fun _ => rfl, fun _ _ => rfl, fun _ _ hchunked => ?_⟩
  unfold startBody at hchunked ⊢
  split_ifs at hchunked ⊢ with hp
  · exact ⟨⟨rfl, rfl⟩, _, rfl⟩
  · exact absurd hchunked hp
  · exact absurd hchunked hp

theorem Walked.callEnd (h : Walked steps p) (hp : CallReady p) (hcode : 0 ≤ (callEnd p).1) :
    Walked (steps ++ callSteps p) (callEnd p).2.2 := by
  by_cases hlive : HeaderLive p
  · have hready := hp.ready hlive
    rw [h.header hlive, List.nil_append, callSteps,
      if_pos (show p.headerState ≠ .headerComplete from hlive)]
    rcases header_run_cases hready with hrun | ⟨hrun, hcomplete⟩ | hrun
    · have hnext := Machine.ready_run_of_more headerMachine_resumable hready hrun
      rw [callEnd_of_more hlive hrun, hrun, if_pos (by decide)]
      exact ⟨fun _ => rfl, fun hdone => absurd hdone hnext.1, fun hdone => absurd hdone hnext.1⟩
    · rw [callEnd_of_stop hlive hrun, hrun, if_neg (by decide)]
      exact walked_startBody.bodyEnd (startBody_headerState.trans hcomplete)
        (startBody_ready (header_run_inside hp hlive hrun))
    · simp [callEnd_of_bad hlive hrun] at hcode
  · have hcomplete : p.headerState = .headerComplete := not_not.mp hlive
    rw [callEnd_of_body hcomplete, callSteps, if_neg (not_not.mpr hcomplete)]
    exact h.bodyEnd hcomplete (hp.body hcomplete)

theorem Walked.appendBytes (h : Walked steps p) (hp : CallReady p) (buf : Bytes) :
    Walked steps (appendBytes buf p) := by
  have hbody : ∀ q : HttpParser, q = p.withBuffers q → q.msgbuf = p.msgbuf ++ buf →
      Walked steps q := by
    intro q hq hmsg
    rw [hq]
    refine ⟨h.header, h.known, fun hcomplete hlength hchunked => ?_⟩
    obtain ⟨hpath, tail, htail⟩ := h.body hcomplete hlength hchunked
    refine ⟨hpath, tail ++ buf, ?_⟩
    change q.msgbuf.drop p.headerOffset = _
    rw [hmsg, List.drop_append_of_le_length hp.header, htail, List.append_assoc]
  exact hbody _ (sameScan_appendBytes p buf).1 (appendBytes_msgbuf p buf)

end Call

/-- A chunked message that a call has completed, `consumed` bytes of the stream. -/
structure Finished (zeroBody : Bool) (stream : Bytes) (consumed : Nat) (steps : List Stepped)
    (p : HttpParser) : Prop where
  state : p.headerState = .headerComplete
  complete : p.complete = true
  message : p.msgbuf = stream.take consumed
  count : consumed ≤ stream.length
  size : p.msgsize < 2 ^ 63
  header : p.headerOffset ≤ p.msgsize
  body : p.msgbuf.drop p.headerOffset = spelled steps
  bodiless : p.bodiless zeroBody = true → steps = []
  path : p.bodiless zeroBody = false →
    Path .chunkData p.headerOffset steps .chunkComplete p.msgsize

section Calls

variable {isResp zeroBody : Bool} {stream : Bytes} {p : HttpParser} {steps : List Stepped}

theorem BodyLengths.transfer_of_chunked (h : BodyLengths isResp zeroBody p)
    (hchunked : p.chunked = true) :
    p.transferLength = if p.bodiless zeroBody then 0 else sizeMax := by
  rw [h.transfer, hchunked]
  simp

theorem appendSteps_of_incomplete (buf : Bytes) (h : p.complete = false) :
    appendSteps buf p = callSteps (appendBytes buf p) := by
  simp [appendSteps, h]

/-- The scan of a call that completes a chunked message. -/
theorem bodyEnd_of_chunked_one (hp : BodyReady p) (hdone : (bodyEnd p).1 = 1)
    (hchunked : (bodyEnd p).2.2.chunked = true) :
    ((bodyEnd p).2.2.transferLength = sizeMax ∧ (bodyEnd p).2.2.chunkState = .chunkComplete ∧
      (bodyEnd p).2.1 = (bodyEnd p).2.2.chunkOffset) ∨
    ((bodyEnd p).2.2.transferLength ≠ sizeMax ∧ (bodyEnd p).2.1
      = sizeAdd (bodyEnd p).2.2.headerOffset (bodyEnd p).2.2.transferLength) := by
  by_cases hlength : p.transferLength = sizeMax
  · left
    have hflag : p.chunked = true := by
      obtain ⟨state, offset, hframe⟩ := bodyEnd_frame hp
      rw [hframe] at hchunked
      exact hchunked
    have hready := hp hlength hflag
    obtain ⟨state, offset, hframe⟩ := chunk_run_frame hready
    rw [bodyEnd_of_chunked hlength hflag hready.1] at hdone ⊢
    have hstop := (chunk_run_of_retOf hready).2 hdone
    refine ⟨?_, chunkComplete_of_run hready hstop, rfl⟩
    dsimp only
    rw [hframe]
    exact hlength
  · right
    rw [bodyEnd_of_length hlength]
    exact ⟨hlength, rfl⟩

theorem callEnd_of_chunked_one (hp : CallReady p) (hdone : (callEnd p).1 = 1)
    (hchunked : (callEnd p).2.2.chunked = true) :
    ((callEnd p).2.2.transferLength = sizeMax ∧ (callEnd p).2.2.chunkState = .chunkComplete ∧
      (callEnd p).2.1 = (callEnd p).2.2.chunkOffset) ∨
    ((callEnd p).2.2.transferLength ≠ sizeMax ∧ (callEnd p).2.1
      = sizeAdd (callEnd p).2.2.headerOffset (callEnd p).2.2.transferLength) := by
  by_cases hlive : HeaderLive p
  · rcases header_run_cases (hp.ready hlive) with hmore | ⟨hstop, -⟩ | hbad
    · simp [callEnd_of_more hlive hmore] at hdone
    · rw [callEnd_of_stop hlive hstop] at hdone hchunked ⊢
      exact bodyEnd_of_chunked_one (startBody_ready (header_run_inside hp hlive hstop)) hdone
        hchunked
    · simp [callEnd_of_bad hlive hbad] at hdone
  · have hcomplete : p.headerState = .headerComplete := not_not.mp hlive
    rw [callEnd_of_body hcomplete] at hdone hchunked ⊢
    exact bodyEnd_of_chunked_one (hp.body hcomplete) hdone hchunked

theorem OnPath.spelled_eq {message : Bytes} {start : Nat} (h : OnPath message start steps p)
    (hstart : start ≤ p.chunkOffset) :
    (message.take p.chunkOffset).drop start = spelled steps := by
  obtain ⟨hpath, tail, htail⟩ := h
  have hlength : p.chunkOffset - start = (spelled steps).length := by
    have := hpath.offset_eq
    omega
  rw [List.drop_take, hlength, htail, List.take_left]

theorem finished_append {buf : Bytes} (hp : Waiting isResp zeroBody stream p)
    (hsteps : Walked steps p) (hsize : (stream ++ buf).length < 2 ^ 63)
    (hdone : (httpParserAppendMessage buf p).1 = 1)
    (hchunked : (httpParserAppendMessage buf p).2.2.chunked = true) :
    Finished zeroBody (stream ++ buf) (stream.length + (httpParserAppendMessage buf p).2.1)
      (steps ++ appendSteps buf p) (httpParserAppendMessage buf p).2.2 := by
  have hbetween := hp.between.appendBytes buf
  have hready := hbetween.ready
  have hmsgsize : (appendBytes buf p).msgsize = (stream ++ buf).length := by
    rw [HttpParser.msgsize, appendBytes_msgbuf, hp.message]
  rw [append_code _ hp.between] at hdone
  rw [append_of_one hp.between hdone (by rw [hp.message]; exact hsize)] at hchunked ⊢
  rw [appendSteps_of_incomplete buf hp.between.incomplete]
  have hwalked := (hsteps.appendBytes hp.between.ready buf).callEnd hready (by rw [hdone]; decide)
  have hstate := callEnd_headerComplete hready hdone
  have hlengths := (callEnd_lengths hready hbetween.lengths (by rw [hdone]; decide)).2 hstate
  have hends := callEnd_of_chunked_one hready hdone hchunked
  have hoffset := callEnd_headerOffset hready hdone
  obtain ⟨hbuffer, hinside⟩ := callEnd_inside hready
  have htotal := hinside hdone
  have hsmall : SmallLength (callEnd (appendBytes buf p)).2.2 := by
    rw [SmallLength, hlengths.transfer_of_chunked hchunked]
    split_ifs
    · exact Or.inr (Nat.zero_le _)
    · exact Or.inl rfl
  have hreach := hp.length_le hsize hdone hsmall
  rw [hmsgsize] at hoffset htotal
  rw [appendBytes_msgbuf, hp.message] at hbuffer
  rw [HttpParser.msgsize, hp.message]
  generalize callEnd (appendBytes buf p) = result
    at hwalked hstate hlengths hends hoffset hbuffer htotal hreach hchunked ⊢
  obtain ⟨code, total, q⟩ := result
  dsimp only at hwalked hstate hlengths hends hoffset hbuffer htotal hreach hchunked ⊢
  have hcount : stream.length + sizeSub total stream.length = total := by
    rw [sizeSub_of_le hreach (by unfold sizeModulus; omega)]
    omega
  have hendsize : (q.endAt total).msgsize = total := by
    rw [HttpParser.msgsize, HttpParser.endAt, List.length_take, hbuffer, Nat.min_eq_left htotal]
  have htransfer := hlengths.transfer_of_chunked hchunked
  rw [hcount]
  rcases hends with ⟨hunknown, hcomplete, rfl⟩ | ⟨hknown, htotal_eq⟩
  · -- the chunk loop found the end
    have hbody : q.bodiless zeroBody = false := by
      by_contra hbodiless
      rw [Bool.not_eq_false] at hbodiless
      rw [hbodiless, hunknown, if_pos rfl] at htransfer
      exact absurd htransfer (by decide)
    have hpath := hwalked.body hstate hunknown hchunked
    have hstart : q.headerOffset ≤ q.chunkOffset := by
      rw [hpath.1.offset_eq]
      exact Nat.le_add_right _ _
    have hfinal := hpath.1
    rw [hcomplete, ← hendsize] at hfinal
    exact
      { state := hstate
        complete := rfl
        message := by rw [← hbuffer]; rfl
        count := htotal
        size := by rw [hendsize]; omega
        header := by rw [hendsize]; exact hstart
        body := hpath.spelled_eq hstart
        bodiless := fun hbodiless => absurd (hbody.symm.trans hbodiless) (by decide)
        path := fun _ => hfinal }
  · -- the answer has no body
    have hbodiless : q.bodiless zeroBody = true := by
      by_contra hbody
      rw [if_neg hbody] at htransfer
      exact hknown htransfer
    have hnone := hwalked.known hstate hknown
    have htotal_eq : total = q.headerOffset := by
      rw [htotal_eq, htransfer, if_pos hbodiless, sizeAdd, sizeModulus]
      omega
    have hempty : (q.endAt total).msgbuf.drop q.headerOffset = [] := by
      apply List.drop_eq_nil_of_le
      rw [← htotal_eq]
      exact hendsize.le
    exact
      { state := hstate
        complete := rfl
        message := by rw [← hbuffer]; rfl
        count := htotal
        size := by rw [hendsize]; omega
        header := by rw [hendsize, htotal_eq]; exact le_rfl
        body := by rw [hnone]; exact hempty
        bodiless := fun _ => hnone
        path := fun hbody => absurd (hbodiless.symm.trans hbody) (by decide) }

theorem feedSteps_of_zero {f : Bytes} {rest : List Bytes}
    (h : (httpParserAppendMessage f p).1 = 0) :
    feedSteps (f :: rest) p
      = appendSteps f p ++ feedSteps rest (httpParserAppendMessage f p).2.2 := by
  simp [feedSteps, h]

theorem feedSteps_of_ne_zero {f : Bytes} {rest : List Bytes}
    (h : (httpParserAppendMessage f p).1 ≠ 0) : feedSteps (f :: rest) p = appendSteps f p := by
  simp [feedSteps, h]

/-- By induction on the fragments, with the invariants between two calls. -/
theorem finished_feed :
    ∀ (fragments : List Bytes) {stream : Bytes} {p : HttpParser} {steps : List Stepped},
      Waiting isResp zeroBody stream p → Walked steps p →
      (stream ++ fragments.flatten).length < 2 ^ 63 → (feed fragments p).code = 1 →
      (feed fragments p).parser.chunked = true →
      Finished zeroBody (stream ++ fragments.flatten)
        (stream.length + (feed fragments p).consumed) (steps ++ feedSteps fragments p)
        (feed fragments p).parser := by
  intro fragments
  induction fragments with
  | nil =>
      intro stream p steps _ _ _ hdone
      simp [feed] at hdone
  | cons f rest ih =>
      intro stream p steps hp hsteps hsize hdone hchunked
      rw [List.flatten_cons, ← List.append_assoc] at hsize ⊢
      have hshort : (stream ++ f).length < 2 ^ 63 := by
        rw [List.length_append] at hsize
        omega
      by_cases hcode : (httpParserAppendMessage f p).1 = 0
      · have hnext := waiting_append hp hcode
        have hzero : (callEnd (appendBytes f p)).1 = 0 := by rw [← append_code _ hp.between, hcode]
        have hwalked : Walked (steps ++ appendSteps f p) (httpParserAppendMessage f p).2.2 := by
          rw [append_of_zero hp.between hzero,
            appendSteps_of_incomplete f hp.between.incomplete]
          exact (hsteps.appendBytes hp.between.ready f).callEnd (hp.between.appendBytes f).ready
            (by rw [hzero])
        have hcount : (httpParserAppendMessage f p).2.1 = f.length := by
          rw [append_of_zero hp.between hzero]
        rw [feed_of_zero hcode] at hdone hchunked ⊢
        have hfinished := ih hnext hwalked hsize hdone hchunked
        rw [feedSteps_of_zero hcode, ← List.append_assoc, hcount, ← Nat.add_assoc,
          ← List.length_append]
        exact hfinished
      · rw [feed_of_ne_zero hcode] at hdone hchunked ⊢
        have hfinished := finished_append hp hsteps hshort hdone hchunked
        rw [feedSteps_of_ne_zero hcode]
        refine { hfinished with message := ?_, count := ?_ }
        · rw [List.take_append_of_le_length hfinished.count]
          exact hfinished.message
        · rw [List.length_append]
          exact Nat.le_add_right_of_le hfinished.count

end Calls

theorem walked_freshParser (isResp zeroBody : Bool) (memory : HttpParser) :
    Walked [] (freshParser isResp zeroBody memory) := by
  have hstate : (freshParser isResp zeroBody memory).headerState = .startLine := by
    unfold freshParser parseZeroBody httpParserInit
    cases zeroBody <;> rfl
  exact ⟨fun _ => rfl, fun _ _ => rfl, fun hcomplete => by simp [hstate] at hcomplete⟩

theorem finished_freshParser (isResp zeroBody : Bool) (memory : HttpParser)
    (fragments : List Bytes) (hsize : fragments.flatten.length < 2 ^ 63)
    (hdone : (feed fragments (freshParser isResp zeroBody memory)).code = 1)
    (hchunked : (feed fragments (freshParser isResp zeroBody memory)).parser.chunked = true) :
    Finished zeroBody fragments.flatten
      (feed fragments (freshParser isResp zeroBody memory)).consumed
      (feedSteps fragments (freshParser isResp zeroBody memory))
      (feed fragments (freshParser isResp zeroBody memory)).parser := by
  have hfinished := finished_feed fragments (waiting_freshParser isResp zeroBody memory)
    (walked_freshParser isResp zeroBody memory) hsize hdone hchunked
  rwa [List.nil_append, List.nil_append, List.length_nil, Nat.zero_add] at hfinished

end WorkflowModel.Http
