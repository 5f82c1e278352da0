import WorkflowModel.Proof.HttpChunkCursor
import WorkflowModel.Proof.HttpChunkGrammar
import WorkflowModel.Proof.HttpEncode
import WorkflowModel.Proof.HttpPieces

/-!
# Decoding undoes the chunked coding

A body that is written in chunks after the grammar, each of a size that the parser takes, is stepped over chunk by
chunk, in any fragments, and the cursor puts its data together again.
-/

namespace WorkflowModel.Http

open WorkflowModel Resume

/-- A chunk as it is written: the line of its size without the line end, and its data. -/
structure ChunkText where
  line : Bytes
  data : Bytes
  deriving DecidableEq, Repr

def ChunkText.bytes (c : ChunkText) : Bytes := c.line ++ crlf ++ c.data ++ crlf

structure ChunkText.Good (c : ChunkText) : Prop where
  size : SizeLine c.line c.data.length
  nonempty : c.data ≠ []
  short : c.line.length < httpChunkLineMax
  small : c.data.length < chunkSizeMax
  plain : charNul ∉ c.line

/-- The chunks, the line of the last chunk and the trailer. -/
structure ChunkedText where
  chunks : List ChunkText
  last : Bytes
  trailers : List Bytes
  deriving DecidableEq, Repr

def ChunkedText.bytes (body : ChunkedText) : Bytes :=
  body.chunks.flatMap ChunkText.bytes ++ (body.last ++ crlf ++ (body.trailers.flatMap (· ++ crlf) ++ crlf))

def ChunkedText.data (body : ChunkedText) : Bytes := body.chunks.flatMap ChunkText.data

structure ChunkedText.Good (body : ChunkedText) : Prop where
  chunks : ∀ c ∈ body.chunks, c.Good
  last : SizeLine body.last 0
  short : body.last.length < httpChunkLineMax
  trailers : ∀ line ∈ body.trailers, line ≠ [] ∧ charCr ∉ line ∧ line.length < httpTrailerLineMax

theorem digitsPart_ne_nil_of_head {line : Bytes} (h : line.head?.any (isDigitOf 16) = true) :
    digitsPart 16 line ≠ [] := by
  cases line with
  | nil => cases h
  | cons c rest =>
      have hdigit : isDigitOf 16 c = true := by simpa using h
      obtain ⟨hspace, hplus, hminus⟩ := plain_of_isDigitOf (by decide) hdigit
      have hsigned : signedPart (c :: rest) = c :: rest := by simp [signedPart, hspace]
      have hunsigned : unsignedPart (c :: rest) = c :: rest := by
        rw [unsignedPart, hsigned]
        simp [signLength, hplus, hminus]
      rw [digitsPart, hunsigned]
      cases rest with
      | nil => simp [hexMarkLength, hdigit]
      | cons x rest =>
          cases rest with
          | nil => simp [hexMarkLength, hdigit]
          | cons d rest =>
              by_cases hmark : (16 : Nat) = 16 ∧ c = 48 ∧ toLower x = 120 ∧ isDigitOf 16 d = true
              · rw [hexMarkLength, if_pos hmark]
                simp [hmark.2.2.2]
              · rw [hexMarkLength, if_neg hmark]
                simp [hdigit]

theorem strtol_of_sizeLine {line : Bytes} {size : Nat} (h : SizeLine line size) (hsize : size < 2 ^ 63) :
    charCr ∉ line ∧ (strtol 16 line).2 ≠ 0 ∧ (strtol 16 line).1 = size := by
  obtain ⟨hplain, hcr, hvalue⟩ := sizeLine_iff.mp h
  refine ⟨hcr, ?_, ?_⟩
  · have hdigits := digitsPart_ne_nil_of_head hplain.1
    have hlength := List.length_pos_iff.mpr hdigits
    rw [strtol_eq_parts, if_neg hdigits]
    dsimp only
    omega
  · rw [hplain.strtol_eq, hvalue]
    unfold longMax
    omega

def ChunkText.stepped (offset : Nat) (c : ChunkText) : SteppedChunk :=
  { line := c.line, start := offset + (c.line.length + 2), data := c.data, skipped := crlf }

theorem ChunkText.bytes_stepped (offset : Nat) (c : ChunkText) : (Stepped.chunk (c.stepped offset)).bytes = c.bytes :=
  rfl

theorem ChunkText.Good.accepted {c : ChunkText} (h : c.Good) (offset : Nat) : (c.stepped offset).Accepted := by
  have hsmall := h.small
  obtain ⟨hcr, hdigits, hvalue⟩ := strtol_of_sizeLine h.size (by
    unfold chunkSizeMax at hsmall
    omega)
  exact ⟨hcr, hdigits, hvalue, h.nonempty, hsmall, rfl⟩

def ChunkedText.steps (offset : Nat) : List ChunkText → Bytes → List Bytes → List Stepped
  | [], last, trailers => .last last :: (trailers.map .trailer ++ [.trailer []])
  | c :: chunks, last, trailers =>
      .chunk (c.stepped offset) :: ChunkedText.steps (offset + c.bytes.length) chunks last trailers

theorem spelled_trailers (trailers : List Bytes) :
    spelled (trailers.map .trailer ++ [.trailer []]) = trailers.flatMap (· ++ crlf) ++ crlf := by
  rw [spelled_append, spelled, List.flatMap_map]
  rfl

theorem spelled_steps (chunks : List ChunkText) (last : Bytes) (trailers : List Bytes) (offset : Nat) :
    spelled (ChunkedText.steps offset chunks last trailers) = (ChunkedText.mk chunks last trailers).bytes := by
  induction chunks generalizing offset with
  | nil =>
      rw [ChunkedText.steps, spelled_cons, spelled_trailers]
      rfl
  | cons c chunks ih =>
      rw [ChunkedText.steps, spelled_cons, ih, ChunkText.bytes_stepped]
      simp only [ChunkedText.bytes, List.flatMap_cons, List.append_assoc]

theorem path_trailers {trailers : List Bytes} (h : ∀ line ∈ trailers, line ≠ [] ∧ charCr ∉ line) (offset : Nat) :
    Path .trailerPart offset (trailers.map .trailer ++ [.trailer []]) .chunkComplete
      (offset + (spelled (trailers.map .trailer ++ [.trailer []])).length) := by
  induction trailers generalizing offset with
  | nil => exact ⟨.chunkComplete, .finish, rfl, rfl⟩
  | cons line trailers ih =>
      obtain ⟨⟨hne, hcr⟩, hrest⟩ := List.forall_mem_cons.mp h
      refine ⟨.trailerPart, .trailer hcr hne, ?_⟩
      rw [List.map_cons, List.cons_append, spelled_cons, List.length_append, ← Nat.add_assoc]
      exact ih hrest _

theorem path_steps {chunks : List ChunkText} {last : Bytes} {trailers : List Bytes}
    (h : (ChunkedText.mk chunks last trailers).Good) (offset : Nat) :
    Path .chunkData offset (ChunkedText.steps offset chunks last trailers) .chunkComplete
      (offset + (spelled (ChunkedText.steps offset chunks last trailers)).length) := by
  induction chunks generalizing offset with
  | nil =>
      obtain ⟨hcr, hdigits, hzero⟩ := strtol_of_sizeLine h.last (by decide)
      refine ⟨.trailerPart, .last hcr hdigits hzero, ?_⟩
      rw [ChunkedText.steps, spelled_cons, List.length_append, ← Nat.add_assoc]
      exact path_trailers (fun line hline => ⟨(h.trailers line hline).1, (h.trailers line hline).2.1⟩) _
  | cons c chunks ih =>
      obtain ⟨hc, hrest⟩ := List.forall_mem_cons.mp h.chunks
      refine ⟨.chunkData, .chunk (hc.accepted offset) rfl, ?_⟩
      rw [ChunkedText.steps, spelled_cons, List.length_append, ← Nat.add_assoc]
      exact ih ⟨hrest, h.last, h.short, h.trailers⟩ _

theorem chunksOf_steps (chunks : List ChunkText) (last : Bytes) (trailers : List Bytes) (offset : Nat) :
    (chunksOf (ChunkedText.steps offset chunks last trailers)).map (fun c => (c.line, c.data))
      = chunks.map fun c => (c.line, c.data) := by
  induction chunks generalizing offset with
  | nil =>
      have hnone : chunksOf (trailers.map .trailer ++ [.trailer []]) = [] := by
        rw [chunksOf, List.filterMap_append, List.filterMap_map]
        simp [Stepped.chunk?, Function.comp_def]
      have hcons : chunksOf (.last last :: (trailers.map .trailer ++ [.trailer []]))
          = chunksOf (trailers.map .trailer ++ [.trailer []]) := rfl
      rw [ChunkedText.steps, hcons, hnone]
      rfl
  | cons c chunks ih =>
      have hcons : chunksOf (ChunkedText.steps offset (c :: chunks) last trailers)
          = c.stepped offset :: chunksOf (ChunkedText.steps (offset + c.bytes.length) chunks last trailers) := rfl
      rw [hcons, List.map_cons, List.map_cons, ih]
      rfl

def Stepped.Short : Stepped → Prop
  | .chunk c => c.line.length < httpChunkLineMax
  | .last line => line.length < httpChunkLineMax
  | .trailer line => line.length < httpTrailerLineMax

theorem scanLine_of_short {max : Nat} {line : Bytes} (hcr : charCr ∉ line) (hshort : line.length < max) (rest : Bytes) :
    scanLine max false [] (line ++ crlf ++ rest) = .line line := by
  rw [scanLine_eq_line_iff (Nat.zero_le _)]
  refine ⟨line, rest, ?_, rfl, hshort, hcr, by simp⟩
  rw [List.append_assoc]
  rfl

section Step

variable {p : HttpParser} {s u : ChunkState} {x : Stepped}

theorem chunkLine_of_accepted {c : SteppedChunk} (h : c.Accepted) (rest : Bytes) :
    chunkLine c.line ((Stepped.chunk c).bytes ++ rest) = .chunk (Stepped.chunk c).bytes.length := by
  have hsize := h.size
  have hpositive := List.length_pos_iff.mpr h.nonempty
  have hsmall := h.small
  have hlength : (Stepped.chunk c).bytes.length = c.data.length + (c.line.length + 4) := by
    simp only [Stepped.bytes, List.length_append, h.skipped, crlf, List.length_cons, List.length_nil]
    omega
  have hvalue : sizeOfInt (c.data.length : Int) = c.data.length := by
    unfold sizeOfInt sizeModulus
    unfold chunkSizeMax at hsmall
    omega
  unfold chunkLine
  rw [if_neg h.digits, hsize, if_neg (by omega), if_pos (by rw [hvalue]; exact hsmall), if_neg, hlength]
  · rfl
  · rw [List.length_append, hlength, Int.toNat_natCast]
    omega

/-- The parser goes over a step that lies before it. -/
theorem parseChunkStep_of_stepsOver (hx : StepsOver s p.chunkOffset x u) (hshort : x.Short) (hstate : p.chunkState = s)
    (rest : Bytes) :
    parseChunkStep p (x.bytes ++ rest) = (if u = .chunkComplete then .stop 1 else .again,
      { p with chunkState := u, chunkOffset := p.chunkOffset + x.bytes.length }) := by
  cases hx with
  | @chunk _ c haccepted hstart =>
      have hbytes : (Stepped.chunk c).bytes ++ rest = c.line ++ crlf ++ (c.data ++ c.skipped ++ rest) := by
        simp only [Stepped.bytes, List.append_assoc]
      have hscan : scanLine httpChunkLineMax false [] ((Stepped.chunk c).bytes ++ rest) = .line c.line := by
        rw [hbytes]
        exact scanLine_of_short haccepted.line hshort _
      rw [parseChunkStep_chunkData _ hstate, parseChunkData_of_line p hscan, chunkLine_of_accepted haccepted rest]
      simp [verdictOf, hstate]
  | @last _ line hcr hdigits hzero =>
      have hscan : scanLine httpChunkLineMax false [] ((Stepped.last line).bytes ++ rest) = .line line :=
        scanLine_of_short hcr hshort rest
      have hline : chunkLine line ((Stepped.last line).bytes ++ rest) = .last := by
        unfold chunkLine
        rw [if_neg hdigits, if_pos hzero]
      rw [parseChunkStep_chunkData _ hstate, parseChunkData_of_line p hscan, hline]
      simp [verdictOf, Stepped.bytes, crlf]
  | @trailer _ line hcr hne =>
      have hscan : scanLine httpTrailerLineMax false [] ((Stepped.trailer line).bytes ++ rest) = .line line :=
        scanLine_of_short hcr hshort rest
      have hlength : line.length ≠ 0 := fun hzero => hne (List.eq_nil_of_length_eq_zero hzero)
      rw [parseChunkStep_trailerPart _ hstate, hscan]
      simp [hlength, hstate, Stepped.bytes, crlf]
  | finish =>
      have hscan : scanLine httpTrailerLineMax false [] ((Stepped.trailer []).bytes ++ rest) = .line [] :=
        scanLine_of_short (by simp) hshort rest
      rw [parseChunkStep_trailerPart _ hstate, hscan]
      simp [Stepped.bytes, crlf]

end Step

theorem Path.eq_nil {steps : List Stepped} {i j : Nat} {t : ChunkState} (h : Path .chunkComplete i steps t j) :
    steps = [] ∧ i = j := by
  cases steps with
  | nil => exact ⟨rfl, h.2⟩
  | cons x steps =>
      obtain ⟨u, hx, -⟩ := h
      cases hx

/-- By induction on the steps, each of which the loop takes. -/
theorem run_of_path {message tail : Bytes} {j : Nat} : ∀ {steps : List Stepped} {p : HttpParser},
    Path p.chunkState p.chunkOffset steps .chunkComplete j → (∀ x ∈ steps, x.Short) →
      message.drop p.chunkOffset = spelled steps ++ tail → p.chunkOffset ≤ message.length → ChunkLive p →
      chunkMachine.run message p = (.stop 1, { p with chunkState := .chunkComplete, chunkOffset := j }) := by
  intro steps
  induction steps with
  | nil =>
      intro p hpath _ _ _ hlive
      exact absurd hpath.1 hlive
  | cons x steps ih =>
      intro p hpath hshort hmessage hinside hlive
      obtain ⟨u, hx, hrest⟩ := hpath
      rw [spelled_cons, List.append_assoc] at hmessage
      have hstep := parseChunkStep_of_stepsOver hx (hshort x List.mem_cons_self) rfl (spelled steps ++ tail)
      rw [← hmessage] at hstep
      by_cases hu : u = .chunkComplete
      · rw [if_pos hu] at hstep
        rw [hu] at hstep hrest
        obtain ⟨-, rfl⟩ := hrest.eq_nil
        have hend : (chunkMachine.step p (message.drop (chunkMachine.offset p))).1 ≠ .again := by
          change (parseChunkStep p (message.drop p.chunkOffset)).1 ≠ .again
          rw [hstep]
          simp
        exact (Machine.run_of_ne_again hend).trans hstep
      · rw [if_neg hu] at hstep
        have hlength := congrArg List.length hmessage
        rw [List.length_drop, List.length_append] at hlength
        rw [Machine.run_again chunkMachine_resumable ⟨hlive, hinside⟩ hstep]
        refine ih hrest (fun y hy => hshort y (List.mem_cons_of_mem x hy)) ?_ ?_ hu
        · simp only
          rw [← List.drop_drop, hmessage, List.drop_left]
        · simp only
          omega

section Message

variable {isResp : Bool} {content text rest : Bytes} {parts : Bytes × Bytes × Bytes} {headers : List (Bytes × Bytes)}
  {body : ChunkedText}

/-- The header of a message is read as a whole, whether it makes the message chunked or not. -/
theorem header_run_headers {p : HttpParser} {behind : Bytes} (hp : CallReady p) (hstate : p.headerState = .startLine)
    (hoffset : p.headerOffset = 0) (hresp : p.isResp = isResp) (hunread : Unread p)
    (hcontent : GoodStartLine content parts)
    (hheaders : ∀ header ∈ headers, GoodName header.1 ∧ GoodValue header.2)
    (hmessage : p.msgbuf = headText content headers ++ behind) :
    ∃ q, headerMachine.run p.msgbuf p = (.stop 1, q) ∧ StartsWith isResp parts q ∧ (isResp = false → q.code = none)
      ∧ q.headerList.map HeaderLine.pair = headers ∧ q.chunked = headers.any makesChunked
      ∧ q.headerState = .headerComplete ∧ q.headerOffset = (headText content headers).length := by
  have hlive : HeaderLive p := by
    rw [HeaderLive, hstate]
    simp
  obtain ⟨fields, htext, hentries⟩ := exists_fields hheaders
  obtain ⟨head, hhead⟩ : ∃ head : Head, head = ⟨0, content, parts, fields, hcontent⟩ := ⟨_, rfl⟩
  have hheadText : headText content headers = head.text ++ crlf := by
    rw [hhead, Head.text, htext, headText, emptyLines]
    simp only [List.replicate_zero, List.flatten_nil, List.nil_append, List.append_assoc]
  have hdrop : p.msgbuf = head.text ++ (crlf ++ behind) := by
    rw [hmessage, hheadText, List.append_assoc]
  obtain ⟨q, hrun, hq⟩ := run_head (hp.ready hlive) hstate hoffset hunread (by simp [crlf]) hdrop
  have hlast := hrun.trans (hq.run_end hdrop)
  have hqresp := header_run_isResp (hp.ready hlive)
  rw [hlast] at hqresp
  have hqresp : q.isResp = isResp := hqresp.trans hresp
  have hqentries : head.entries = headers := by rw [Head.entries, hhead, hentries]
  refine ⟨_, hlast, ?_, fun hrequest => hq.stored.code (hqresp.trans hrequest), hq.stored.list.trans hqentries, ?_, rfl,
    ?_⟩
  · have hparts := hq.stored.parts
    rw [hqresp, hhead] at hparts
    exact hparts
  · rw [← hqentries]
    exact hq.stored.chunked
  · dsimp only
    rw [hheadText, List.length_append, hq.offset]
    rfl

theorem short_steps (h : body.Good) (offset : Nat) :
    ∀ x ∈ ChunkedText.steps offset body.chunks body.last body.trailers, x.Short := by
  obtain ⟨chunks, last, trailers⟩ := body
  induction chunks generalizing offset with
  | nil =>
      intro x hx
      obtain rfl | hx := List.mem_cons.mp hx
      · exact h.short
      · obtain hx | hx := List.mem_append.mp hx
        · obtain ⟨line, hline, rfl⟩ := List.mem_map.mp hx
          exact (h.trailers line hline).2.2
        · rw [List.mem_singleton.mp hx]
          exact Nat.zero_lt_succ _
  | cons c chunks ih =>
      obtain ⟨hc, hrest⟩ := List.forall_mem_cons.mp h.chunks
      intro x hx
      obtain rfl | hx := List.mem_cons.mp hx
      · exact hc.short
      · exact ih _ ⟨hrest, h.last, h.short, h.trailers⟩ x hx

/-- The scan of the whole text ends behind the trailer. -/
theorem callEnd_chunkedText (memory : HttpParser) (hcontent : GoodStartLine content parts)
    (hheaders : ∀ header ∈ headers, GoodName header.1 ∧ GoodValue header.2)
    (hchunked : headers.any makesChunked = true) (hstatus : isResp = true → hasNoBody parts.2.1 = false)
    (hbody : body.Good) (htext : text = headText content headers ++ (body.bytes ++ rest)) :
    ∃ q, callEnd (appendBytes text (freshParser isResp false memory))
        = (1, (headText content headers).length + body.bytes.length, q)
      ∧ q.msgbuf = text ∧ q.headerState = .headerComplete ∧ q.headerOffset = (headText content headers).length
      ∧ StartsWith isResp parts q ∧ q.headerList.map HeaderLine.pair = headers ∧ q.chunked = true
      ∧ q.bodiless false = false := by
  have hbetween := (between_freshParser isResp false memory).appendBytes text
  have hready := hbetween.ready
  have hmsg : (appendBytes text (freshParser isResp false memory)).msgbuf = text := rfl
  have hfresh : ∀ p : HttpParser, SameScan (freshParser isResp false memory) p →
      p.headerState = .startLine ∧ p.headerOffset = 0 ∧ p.isResp = isResp ∧ Unread p := by
    rintro p ⟨hp, -⟩
    rw [hp]
    exact ⟨rfl, rfl, rfl, rfl, rfl, rfl, rfl⟩
  obtain ⟨hstart, hoffset, hresp, hnew⟩ := hfresh _ (sameScan_appendBytes _ text)
  generalize appendBytes text (freshParser isResp false memory) = p
    at hbetween hready hmsg hstart hoffset hresp hnew ⊢
  have hlive : HeaderLive p := by
    rw [HeaderLive, hstart]
    simp
  obtain ⟨q, hrun, hparts, hcode, hlist, hany, hcomplete, hqoffset⟩ :=
    header_run_headers hready hstart hoffset hresp hnew hcontent hheaders (hmsg.trans htext)
  have hlengths := header_run_lengths (hready.ready hlive) (hbetween.lengths.1 hlive)
  have hqmsg := header_run_msgbuf (hready.ready hlive)
  rw [hrun] at hlengths hqmsg
  have hqchunked : q.chunked = true := hany.trans hchunked
  have hbodiless : q.bodiless false = false := by
    rw [HttpParser.bodiless, Bool.false_or]
    cases isResp with
    | false => rw [hcode rfl, Option.any_none]
    | true =>
        rw [hparts.2.2.1]
        exact hstatus rfl
  have hstarted : startBody q = { q with chunkOffset := q.headerOffset, chunkState := .chunkData } :=
    if_pos hqchunked
  have htransfer : (startBody q).transferLength = sizeMax := by
    have hlength := (startBody_lengths hlengths).transfer_of_chunked (by rw [hstarted]; exact hqchunked)
    rw [show (startBody q).bodiless false = q.bodiless false by rw [hstarted]; rfl, hbodiless] at hlength
    exact hlength
  have hqmsg' : q.msgbuf = text := hqmsg.trans hmsg
  -- the loop goes over the steps that the text is made of
  have hdrop : (startBody q).msgbuf.drop (startBody q).chunkOffset
      = spelled (ChunkedText.steps q.headerOffset body.chunks body.last body.trailers) ++ rest := by
    rw [hstarted]
    simp only
    rw [hqmsg', hqoffset, htext, List.drop_left, spelled_steps]
  have hinside : (startBody q).chunkOffset ≤ (startBody q).msgbuf.length := by
    rw [hstarted]
    simp only
    rw [hqmsg', hqoffset, htext, List.length_append]
    omega
  have hpath := path_steps hbody q.headerOffset
  have hloop := run_of_path (p := startBody q) (by rw [hstarted]; exact hpath) (short_steps hbody _) hdrop hinside (by
    rw [hstarted, ChunkLive]
    simp)
  rw [spelled_steps] at hloop
  have hend : callEnd p = (1, q.headerOffset + body.bytes.length, { startBody q with
      chunkState := .chunkComplete, chunkOffset := q.headerOffset + body.bytes.length }) := by
    rw [callEnd_of_stop hlive (by rw [hrun]), hrun, bodyEnd_of_chunked htransfer (by rw [hstarted]; exact hqchunked) (by
      rw [hstarted, ChunkLive]; simp), hloop]
    rfl
  rw [hqoffset] at hend
  rw [hstarted] at hend
  exact ⟨_, hend, hqmsg', hcomplete, hqoffset, hparts, hlist, hqchunked, hbodiless⟩

theorem append_chunkedText (memory : HttpParser) (hcontent : GoodStartLine content parts)
    (hheaders : ∀ header ∈ headers, GoodName header.1 ∧ GoodValue header.2)
    (hchunked : headers.any makesChunked = true) (hstatus : isResp = true → hasNoBody parts.2.1 = false)
    (hbody : body.Good) (htext : text = headText content headers ++ (body.bytes ++ rest))
    (hsize : text.length < 2 ^ 63) :
    ∃ q, httpParserAppendMessage text (freshParser isResp false memory)
        = (1, (headText content headers).length + body.bytes.length, q)
      ∧ StartsWith isResp parts q ∧ q.headerList.map HeaderLine.pair = headers ∧ q.chunked = true
      ∧ Finished false text ((headText content headers).length + body.bytes.length)
          (ChunkedText.steps (headText content headers).length body.chunks body.last body.trailers) q := by
  obtain ⟨q, hcall, hmsg, hstate, hoffset, hparts, hlist, hqchunked, hbodiless⟩ :=
    callEnd_chunkedText memory hcontent hheaders hchunked hstatus hbody htext
  have happend := append_of_one (between_freshParser isResp false memory) (by rw [hcall]) hsize
  rw [hcall] at happend
  dsimp only at happend
  have hpath := path_steps hbody (headText content headers).length
  rw [spelled_steps] at hpath
  have hspelled := spelled_steps body.chunks body.last body.trailers (headText content headers).length
  generalize headText content headers = head at *
  have hlength : text.length = head.length + (body.bytes.length + rest.length) := by
    rw [htext, List.length_append, List.length_append]
  have hempty : (freshParser isResp false memory).msgsize = 0 := rfl
  have hended : (q.endAt (head.length + body.bytes.length)).msgsize = head.length + body.bytes.length := by
    rw [HttpParser.msgsize, HttpParser.endAt, List.length_take, hmsg, Nat.min_eq_left (by omega)]
  have hrest : ((q.endAt (head.length + body.bytes.length)).msgbuf).drop q.headerOffset = body.bytes := by
    change (q.msgbuf.take (head.length + body.bytes.length)).drop q.headerOffset = _
    rw [hmsg, hoffset, List.drop_take, htext, List.drop_left, Nat.add_sub_cancel_left, List.take_left]
  refine ⟨q.endAt (head.length + body.bytes.length), happend.trans ?_, hparts, hlist, hqchunked, ?_⟩
  · rw [hempty, sizeSub_of_le (Nat.zero_le _) (by unfold sizeModulus; omega), Nat.sub_zero]
  · refine ⟨hstate, rfl, congrArg _ hmsg, by omega, by rw [hended]; omega, ?_, hrest.trans hspelled.symm, ?_, ?_⟩
    · rw [hended]
      exact hoffset.le.trans (Nat.le_add_right _ _)
    · intro htrue
      exact absurd (hbodiless.symm.trans htrue) (by decide)
    · intro _
      rw [hended]
      exact hoffset.symm ▸ hpath

end Message

structure Dechunked (isResp : Bool) (parts : Bytes × Bytes × Bytes) (headers : List (Bytes × Bytes)) (data : Bytes)
    (p : HttpParser) : Prop where
  start : StartsWith isResp parts p
  headers : p.headerList.map HeaderLine.pair = headers
  decode : decodeChunkedBody p = some data

theorem decode_of_finished {body : ChunkedText} (hbody : body.Good) {stream : Bytes} {consumed offset : Nat}
    {p : HttpParser} (h : Finished false stream consumed
      (ChunkedText.steps offset body.chunks body.last body.trailers) p) (hchunked : p.chunked = true) :
    decodeChunkedBody p = some body.data := by
  have hchunks := chunksOf_steps body.chunks body.last body.trailers offset
  have hfree : ∀ c ∈ chunksOf (ChunkedText.steps offset body.chunks body.last body.trailers), charNul ∉ c.line := by
    intro c hc
    have hmem := List.mem_map_of_mem (f := fun c => (c.line, c.data)) hc
    rw [hchunks] at hmem
    obtain ⟨chunk, hchunk, hpair⟩ := List.mem_map.mp hmem
    rw [← (Prod.mk.inj hpair).1]
    exact (hbody.chunks chunk hchunk).plain
  have hdata : (chunksOf (ChunkedText.steps offset body.chunks body.last body.trailers)).flatMap SteppedChunk.data
      = body.data := by
    have hmap := congrArg (fun pairs => (pairs.map Prod.snd).flatten) hchunks
    simp only [List.map_map, Function.comp_def] at hmap
    rw [List.flatMap, ChunkedText.data, List.flatMap]
    exact hmap
  rw [((h.cursorAgrees_iff hchunked).mpr hfree).decode, hdata]

theorem Dechunked.of_same {isResp : Bool} {parts : Bytes × Bytes × Bytes} {headers : List (Bytes × Bytes)}
    {data : Bytes} {p q : HttpParser} (hsame : Same p q) (h : Dechunked isResp parts headers data q) :
    Dechunked isResp parts headers data p := by
  have hmessage : q = _ := hsame.sameMessage
  obtain ⟨hstart, hheaders, hdecode⟩ := h
  rw [hmessage] at hstart hheaders hdecode
  exact ⟨hstart, hheaders, hdecode⟩

theorem ends_chunkedText (isResp : Bool) (memory : HttpParser) {content : Bytes} {parts : Bytes × Bytes × Bytes}
    {headers : List (Bytes × Bytes)} {body : ChunkedText} (hcontent : GoodStartLine content parts)
    (hheaders : ∀ header ∈ headers, GoodName header.1 ∧ GoodValue header.2)
    (hchunked : headers.any makesChunked = true) (hstatus : isResp = true → hasNoBody parts.2.1 = false)
    (hbody : body.Good) : Ends isResp false memory (headText content headers ++ body.bytes)
      (Dechunked isResp parts headers body.data) where
  nonempty := headText_ne_nil content headers body.bytes
  stops := by
    intro rest hsize
    obtain ⟨q, hcall, hparts, hlist, hqchunked, hfinished⟩ := append_chunkedText memory hcontent hheaders hchunked
      hstatus hbody (List.append_assoc _ _ rest) hsize
    rw [List.length_append]
    exact ⟨q, hcall, hparts, hlist, decode_of_finished hbody hfinished hqchunked⟩
  same := fun _ _ => Dechunked.of_same

/-- A chunked message that comes in any fragments, with anything behind it, ends where its trailer ends, and its
decoded body is the data of its chunks. -/
theorem dechunked_of_fragments (isResp : Bool) (memory : HttpParser) {content rest : Bytes}
    {parts : Bytes × Bytes × Bytes} {headers : List (Bytes × Bytes)} {body : ChunkedText} {fragments : List Bytes}
    (hcontent : GoodStartLine content parts)
    (hheaders : ∀ header ∈ headers, GoodName header.1 ∧ GoodValue header.2)
    (hchunked : headers.any makesChunked = true) (hstatus : isResp = true → hasNoBody parts.2.1 = false)
    (hbody : body.Good) (hfragments : fragments.flatten = headText content headers ++ body.bytes ++ rest)
    (hsize : fragments.flatten.length < 2 ^ 63) :
    (feed fragments (freshParser isResp false memory)).code = 1
      ∧ (feed fragments (freshParser isResp false memory)).consumed
          = (headText content headers ++ body.bytes).length
      ∧ Dechunked isResp parts headers body.data (feed fragments (freshParser isResp false memory)).parser :=
  (ends_chunkedText isResp memory hcontent hheaders hchunked hstatus hbody).feed hfragments hsize

/-- A chunk with an extension, one with a size above nine, and a trailer. -/
def tracedBody : ChunkedText where
  chunks := [⟨bytesOf "3;a=b", bytesOf "xyz"⟩, ⟨bytesOf "A", bytesOf "0123456789"⟩]
  last := bytesOf "00"
  trailers := [bytesOf "Expires: 0"]

theorem good_tracedBody : tracedBody.Good where
  chunks := by
    intro c hc
    simp only [tracedBody, List.mem_cons, List.not_mem_nil, or_false] at hc
    obtain rfl | rfl := hc
    · exact ⟨⟨bytesOf "3", bytesOf ";a=b", by decide +kernel⟩, by decide +kernel, by decide +kernel,
        by decide +kernel, by decide +kernel⟩
    · exact ⟨⟨bytesOf "A", [], by decide +kernel⟩, by decide +kernel, by decide +kernel,
        by decide +kernel, by decide +kernel⟩
  last := ⟨bytesOf "00", [], by decide +kernel⟩
  short := by decide +kernel
  trailers := by decide +kernel

/-- Cut inside the name of a header, inside a size line and inside the last line end. -/
def tracedFragments : List Bytes :=
  [bytesOf "HTTP/1.1 200 OK\r\nTransfer-Enc", bytesOf "oding: chunked\r\n\r\n3;a", bytesOf "=b\r\nxyz\r\nA\r\n01234",
   bytesOf "56789\r\n00\r\nExpires: 0\r\n\r", bytesOf "\nHTTP/1.1"]

theorem dechunked_of_tracedFragments :
    (feed tracedFragments (freshParser true false zeroedParser)).consumed = 92
      ∧ decodeChunkedBody (feed tracedFragments (freshParser true false zeroedParser)).parser
          = some (bytesOf "xyz0123456789") := by
  have hstart : GoodStartLine (bytesOf "HTTP/1.1 200 OK") (bytesOf "HTTP/1.1", bytesOf "200", bytesOf "OK") :=
    ⟨by decide +kernel, by decide +kernel, by decide +kernel⟩
  have htext : tracedFragments.flatten
      = headText (bytesOf "HTTP/1.1 200 OK") [(bytesOf "Transfer-Encoding", bytesOf "chunked")]
        ++ tracedBody.bytes ++ bytesOf "HTTP/1.1" := by
    decide +kernel
  obtain ⟨-, hconsumed, -, -, hdecode⟩ := dechunked_of_fragments true zeroedParser hstart (by decide +kernel)
    (by decide +kernel) (by decide +kernel) good_tracedBody htext (by decide +kernel)
  exact ⟨hconsumed.trans (by decide +kernel), hdecode⟩

end WorkflowModel.Http
