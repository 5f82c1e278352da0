import WorkflowModel.Proof.HttpEncode

/-!
# Decoding undoes encoding

A message that `HttpMessage::encode` has turned into vectors is parsed back into the same start line,
headers and body, when its headers are ones the parser can read and give the length of the body.
-/

namespace WorkflowModel.Http

open WorkflowModel Resume

theorem digitsValue_snoc (base : Nat) (digits : Bytes) (c : UInt8) :
    digitsValue base (digits ++ [c]) = digitsValue base digits * base + digitValue c := by
  simp [digitsValue]

theorem decimalDigits_spec : ∀ (fuel n : Nat), n < fuel →
    digitsValue 10 (decimalDigits fuel n) = n ∧ decimalDigits fuel n ≠ [] ∧
      ∀ c ∈ decimalDigits fuel n, isDigit c = true := by
  have hdigit : ∀ d, d < 10 →
      digitValue (48 + d).toUInt8 = d ∧ isDigit (48 + d).toUInt8 = true := by
    decide
  intro fuel
  induction fuel with
  | zero => intro n hn; omega
  | succ fuel ih =>
      intro n hn
      rw [decimalDigits]
      split_ifs with hsmall
      · have hlast := hdigit n hsmall
        refine ⟨?_, by simp, ?_⟩
        · rw [← List.nil_append [(48 + n).toUInt8], digitsValue_snoc, hlast.1]
          exact (congrArg (· + n) (Nat.zero_mul 10)).trans (Nat.zero_add n)
        · intro c hc
          rw [List.mem_singleton.mp hc]
          exact hlast.2
      · obtain ⟨hvalue, -, hall⟩ := ih (n / 10) (by omega)
        have hlast := hdigit (n % 10) (Nat.mod_lt n (by decide))
        refine ⟨?_, by simp, ?_⟩
        · rw [digitsValue_snoc, hvalue, hlast.1]
          omega
        · intro c hc
          rcases List.mem_append.mp hc with hmem | hmem
          · exact hall c hmem
          · rw [List.mem_singleton.mp hmem]
            exact hlast.2

theorem decimal_digit (n : Nat) : (decimal n).head?.any isDigit = true := by
  obtain ⟨-, hne, hall⟩ := decimalDigits_spec (n + 1) n (Nat.lt_succ_self n)
  cases hdigits : decimal n with
  | nil => exact absurd hdigits hne
  | cons c rest =>
      rw [decimal] at hdigits
      exact hall c (by simp [hdigits])

theorem numeralOf_decimal (n : Nat) : numeralOf (decimal n) = n := by
  obtain ⟨hvalue, -, hall⟩ := decimalDigits_spec (n + 1) n (Nat.lt_succ_self n)
  rw [numeralOf, decimal, List.takeWhile_eq_self_iff.mpr hall, hvalue]

theorem startBody_frame {q : HttpParser} (h : q.chunked = false) :
    ∃ length, startBody q = { q with transferLength := length } := by
  rw [startBody, if_neg (by simp [h])]
  split_ifs
  · exact ⟨q.contentLength, rfl⟩
  · exact ⟨q.transferLength, rfl⟩

/-- `content_length` when the headers `lines` have been read. -/
def lengthFrom (isResp : Bool) (lines : List HeaderLine) : Nat :=
  contentLengthAfter (if isResp then sizeMax else 0) lines

section Text

variable {isResp : Bool} {content body text : Bytes} {parts : Bytes × Bytes × Bytes}
  {lines : List HeaderLine}

/-- The length of the body of a message that is not chunked and has a body. -/
theorem transferLength_of_read {q : HttpParser} (hlengths : HeaderLengths isResp false q)
    (hparts : StartsWith isResp parts q) (hcode : isResp = false → q.code = none)
    (hlist : q.headerList.map HeaderLine.pair = lines.map HeaderLine.pair)
    (hchunked : q.chunked = false) (hstatus : isResp = true → hasNoBody parts.2.1 = false) :
    (startBody q).transferLength = lengthFrom isResp lines := by
  have hbody := startBody_lengths hlengths
  have hbodiless : q.bodiless false = false := by
    rw [HttpParser.bodiless, Bool.false_or]
    cases isResp with
    | false => rw [hcode rfl, Option.any_none]
    | true =>
        rw [hparts.2.2.1]
        exact hstatus rfl
  obtain ⟨other, hframe⟩ := startBody_frame hchunked
  have hsame : (startBody q).bodiless false = q.bodiless false ∧ (startBody q).chunked = q.chunked ∧
      (startBody q).headerList = q.headerList := by
    rw [hframe]
    exact ⟨rfl, rfl, rfl⟩
  rw [hbody.transfer, hsame.1, hsame.2.1, hbodiless, hchunked, hbody.content, hsame.2.2,
    contentLengthAfter_eq, hlist, ← contentLengthAfter_eq]
  rfl

/-- The scan of a text ends as many bytes behind the header as the headers say. -/
theorem callEnd_text (memory : HttpParser) (hcontent : GoodStartLine content parts)
    (hlines : ∀ line ∈ lines, GoodName line.name ∧ GoodValue line.value ∧
      isTransferEncoding line.name = false)
    (hstatus : isResp = true → hasNoBody parts.2.1 = false)
    (htext : text = headText content (lines.map HeaderLine.pair) ++ body)
    (hsize : text.length < 2 ^ 63) (hfits : lengthFrom isResp lines ≤ body.length) :
    ∃ q, callEnd (appendBytes text (freshParser isResp false memory))
        = (1, (headText content (lines.map HeaderLine.pair)).length + lengthFrom isResp lines, q) ∧
      q.msgbuf = text ∧ q.headerState = .headerComplete ∧
      q.headerOffset = (headText content (lines.map HeaderLine.pair)).length ∧
      StartsWith isResp parts q ∧ q.headerList.map HeaderLine.pair = lines.map HeaderLine.pair := by
  have hbetween := (between_freshParser isResp false memory).appendBytes text
  have hready := hbetween.ready
  have hmsg : (appendBytes text (freshParser isResp false memory)).msgbuf = text := rfl
  have hfresh : ∀ p : HttpParser, SameScan (freshParser isResp false memory) p →
      p.headerState = .startLine ∧ p.headerOffset = 0 ∧ p.isResp = isResp ∧ Unread p := by
    rintro p ⟨hp, -⟩
    rw [hp]
    exact ⟨rfl, rfl, rfl, rfl, rfl, rfl, rfl⟩
  obtain ⟨hstart, hoffset, hresp, hnew⟩ := hfresh _ (sameScan_appendBytes _ text)
  generalize appendBytes text (freshParser isResp false memory) = p
    at hbetween hready hmsg hstart hoffset hresp hnew ⊢
  have hlive : HeaderLive p := by
    rw [HeaderLive, hstart]
    simp
  obtain ⟨q, hrun, hparts, hcode, hlist, hchunked, hcomplete, hqoffset⟩ := header_run_text hready
    hstart hoffset hresp hnew hcontent (by
      intro header hheader
      obtain ⟨line, hline, rfl⟩ := List.mem_map.mp hheader
      exact hlines line hline) (hmsg.trans htext)
  have hlengths := header_run_lengths (hready.ready hlive) (hbetween.lengths.1 hlive)
  have hqmsg := header_run_msgbuf (hready.ready hlive)
  rw [hrun] at hlengths hqmsg
  have htransfer := transferLength_of_read hlengths hparts hcode hlist hchunked hstatus
  have hlength : text.length = (headText content (lines.map HeaderLine.pair)).length + body.length := by
    rw [htext, List.length_append]
  have htotal : sizeAdd (startBody q).headerOffset (startBody q).transferLength
      = (headText content (lines.map HeaderLine.pair)).length + lengthFrom isResp lines := by
    rw [startBody_headerOffset, hqoffset, htransfer]
    unfold sizeAdd sizeModulus
    omega
  have hknown : (startBody q).transferLength ≠ sizeMax := by
    rw [htransfer]
    unfold sizeMax sizeModulus
    omega
  have hqmsg' : (startBody q).msgbuf = text := (startBody_msgbuf.trans hqmsg).trans hmsg
  obtain ⟨other, hframe⟩ := startBody_frame hchunked
  refine ⟨startBody q, ?_, hqmsg', startBody_headerState.trans hcomplete,
    startBody_headerOffset.trans hqoffset, by rw [hframe]; exact hparts, by rw [hframe]; exact hlist⟩
  rw [callEnd_of_stop hlive (by rw [hrun]), hrun, bodyEnd_of_length hknown, htotal,
    if_pos (by rw [HttpParser.msgsize, hqmsg']; omega)]

structure Received (isResp : Bool) (parts : Bytes × Bytes × Bytes) (lines : List HeaderLine)
    (body : Bytes) (p : HttpParser) : Prop where
  start : StartsWith isResp parts p
  headers : p.headerList.map HeaderLine.pair = lines.map HeaderLine.pair
  body : httpParserGetBody p = some (body, body.length)

theorem append_text (memory : HttpParser) (hcontent : GoodStartLine content parts)
    (hlines : ∀ line ∈ lines, GoodName line.name ∧ GoodValue line.value ∧
      isTransferEncoding line.name = false)
    (hstatus : isResp = true → hasNoBody parts.2.1 = false)
    (htext : text = headText content (lines.map HeaderLine.pair) ++ body)
    (hsize : text.length < 2 ^ 63) (hfits : lengthFrom isResp lines ≤ body.length) :
    ∃ p, httpParserAppendMessage text (freshParser isResp false memory)
        = (1, (headText content (lines.map HeaderLine.pair)).length + lengthFrom isResp lines, p) ∧
      Received isResp parts lines (body.take (lengthFrom isResp lines)) p := by
  obtain ⟨q, hcall, hmsg, hstate, hoffset, hparts, hlist⟩ :=
    callEnd_text memory hcontent hlines hstatus htext hsize hfits
  have happend := append_of_one (between_freshParser isResp false memory) (by rw [hcall]) hsize
  rw [hcall] at happend
  dsimp only at happend
  generalize headText content (lines.map HeaderLine.pair) = head at *
  generalize lengthFrom isResp lines = length at *
  have hlength : text.length = head.length + body.length := by
    rw [htext, List.length_append]
  have hempty : (freshParser isResp false memory).msgsize = 0 := rfl
  have hended : (q.endAt (head.length + length)).msgsize = head.length + length := by
    rw [HttpParser.msgsize, HttpParser.endAt, List.length_take, hmsg, Nat.min_eq_left (by omega)]
  have hbody : ((q.endAt (head.length + length)).msgbuf).drop q.headerOffset = body.take length := by
    change (q.msgbuf.take (head.length + length)).drop q.headerOffset = _
    rw [hmsg, hoffset, List.drop_take, htext, List.drop_left, Nat.add_sub_cancel_left]
  refine ⟨q.endAt (head.length + length), happend.trans ?_, hparts, hlist, ?_⟩
  · rw [hempty, sizeSub_of_le (Nat.zero_le _) (by unfold sizeModulus; omega), Nat.sub_zero]
  · have hfound : (q.endAt (head.length + length)).headerState = .headerComplete := hstate
    have hsub : sizeSub (head.length + length) q.headerOffset = (body.take length).length := by
      rw [hoffset, sizeSub_of_le (by omega) (by unfold sizeModulus; omega), List.length_take_of_le hfits,
        Nat.add_sub_cancel_left]
    rw [httpParserGetBody, hended, hfound, ← hbody]
    rw [← hbody] at hsub
    exact congrArg (fun size => some (_, size)) hsub

end Text

/-- The header loop of `encode` ends early only where the index has reached `max`. -/
theorem headerVectors_cases (max : Int) : ∀ (lines : List HeaderLine) (i : Nat),
    headerVectors max i lines = lines.map HeaderLine.vector ∨
      (i : Int) + (headerVectors max i lines).length = max := by
  intro lines
  induction lines with
  | nil => intro i; exact Or.inl rfl
  | cons line lines ih =>
      intro i
      rw [headerVectors]
      split_ifs with hmax
      · exact Or.inr (by rw [← hmax]; simp)
      · rcases ih (i + 1) with hall | hend
        · exact Or.inl (by rw [hall, List.map_cons])
        · refine Or.inr ?_
          rw [List.length_cons]
          push_cast at hend ⊢
          omega

def joinParts (parts : Bytes × Bytes × Bytes) : Bytes :=
  parts.1 ++ [charSpace] ++ parts.2.1 ++ [charSpace] ++ parts.2.2

theorem not_mem_joinParts {c : UInt8} {part1 part2 part3 : Bytes} (hc : c ≠ charSpace)
    (h1 : c ∉ part1) (h2 : c ∉ part2) (h3 : c ∉ part3) : c ∉ joinParts (part1, part2, part3) := by
  simp [joinParts, hc, h1, h2, h3]

section Encode

variable {isResp : Bool} {max : Int} {msg after : HttpMessage} {parts : Bytes × Bytes × Bytes}
  {vectors : List Bytes}

theorem startLine_of_startsWith (h : StartsWith isResp parts msg.parser) :
    startLine msg.parser = some parts := by
  obtain ⟨part1, part2, part3⟩ := parts
  cases isResp with
  | true =>
      obtain ⟨hmethod, hversion, hcode, hphrase⟩ := h
      simp [startLine, hmethod, hversion, hcode, hphrase]
  | false =>
      obtain ⟨hmethod, huri, hversion⟩ := h
      simp [startLine, hmethod, huri, hversion]

theorem encode_ok (hencode : msg.encode max = .ok (vectors, after))
    (hstart : startLine msg.parser = some parts) :
    (msg.parser.headerList.length : Int) + 7 < max ∧
    vectors.flatten = joinParts (cString parts.1, cString parts.2.1, cString parts.2.2) ++ (crlf ++
      ((msg.parser.headerList.map HeaderLine.vector).flatten ++ crlf)) ++ msg.body := by
  obtain ⟨part1, part2, part3⟩ := parts
  simp only [HttpMessage.encode, hstart] at hencode
  split_ifs at hencode with hoverflow
  rw [Except.ok.injEq, Prod.mk.injEq] at hencode
  have hvectors : headerVectors max 6 msg.parser.headerList
      = msg.parser.headerList.map HeaderLine.vector := by
    rcases headerVectors_cases max msg.parser.headerList 6 with hall | hend
    · exact hall
    · push_cast at hoverflow hend
      omega
  rw [hvectors, List.length_map] at hoverflow
  refine ⟨by push_cast at hoverflow; omega, ?_⟩
  rw [← hencode.1, hvectors, List.flatten_append, bodyVectors_flatten max _ _ msg.size_eq]
  simp [joinParts, HttpMessage.body]

def GoodLine (line : HeaderLine) : Prop :=
  line.Spells line.pair ∧ GoodName line.name ∧ GoodValue line.value

instance : DecidablePred GoodLine := fun line =>
  inferInstanceAs (Decidable (line.Spells line.pair ∧ GoodName line.name ∧ GoodValue line.value))

theorem length_flatMap_headerText {lines : List HeaderLine} (hlines : ∀ line ∈ lines, GoodLine line) :
    ((lines.map HeaderLine.pair).flatMap headerText).length ≤ 8258 * lines.length := by
  induction lines with
  | nil => simp
  | cons line lines ih =>
      obtain ⟨⟨-, hname, hvalue⟩, hrest⟩ := List.forall_mem_cons.mp hlines
      have hline : (headerText line.pair).length ≤ 8258 := by
        have hn := hname.short
        have hv := hvalue.short
        rw [length_headerText]
        change line.name.length + 2 + line.value.length + 2 ≤ _
        omega
      have hmore := ih hrest
      rw [List.map_cons, List.flatMap_cons, List.length_append, List.length_cons]
      omega

theorem flatten_vectors {lines : List HeaderLine} (h : ∀ line ∈ lines, line.Spells line.pair ∧
      line.name.length < 2 ^ 31 ∧ line.value.length < 2 ^ 31) :
    (lines.map HeaderLine.vector).flatten = (lines.map HeaderLine.pair).flatMap headerText := by
  rw [List.flatMap_def, List.map_map]
  congr 1
  apply List.map_congr_left
  intro line hline
  obtain ⟨hspells, hname, hvalue⟩ := h line hline
  exact hspells.vector_eq hname hvalue

/-- The text of a message with good headers, and its length when `max` is an `int`. -/
theorem text_of_encode (hencode : msg.encode max = .ok (vectors, after)) (hmax : max ≤ 2147483647)
    (hstart : StartsWith isResp parts msg.parser) (hnul : charNul ∉ joinParts parts)
    (hshort : (joinParts parts).length ≤ 8191) (hbody : msg.outputBodySize ≤ intMax)
    (hlines : ∀ line ∈ msg.parser.headerList, GoodLine line) :
    vectors.flatten = headText (joinParts parts) (msg.parser.headerList.map HeaderLine.pair)
      ++ msg.body ∧ vectors.flatten.length < 2 ^ 63 := by
  obtain ⟨hcount, hflatten⟩ := encode_ok hencode (startLine_of_startsWith hstart)
  obtain ⟨part1, part2, part3⟩ := parts
  have hparts : charNul ∉ part1 ∧ charNul ∉ part2 ∧ charNul ∉ part3 := by
    simp only [joinParts, List.mem_append, not_or] at hnul
    exact ⟨hnul.1.1.1.1, hnul.1.1.2, hnul.2⟩
  have hvectors := flatten_vectors fun line hline =>
    ⟨(hlines line hline).1, (hlines line hline).2.1.length_lt, (hlines line hline).2.2.length_lt⟩
  have htext : vectors.flatten = headText (joinParts (part1, part2, part3))
      (msg.parser.headerList.map HeaderLine.pair) ++ msg.body := by
    rw [hflatten, hvectors, cString_of_not_mem hparts.1, cString_of_not_mem hparts.2.1,
      cString_of_not_mem hparts.2.2]
    rfl
  refine ⟨htext, ?_⟩
  have hheaders := length_flatMap_headerText hlines
  have hsize : msg.body.length ≤ intMax := by
    rw [HttpMessage.body, ← msg.size_eq]
    exact hbody
  rw [htext, headText]
  simp only [List.length_append, crlf, List.length_cons, List.length_nil]
  unfold intMax at hsize
  omega

end Encode

/-- A message with good headers, one of which gives the length of its body, comes back as it was. The
bound on `max` is that of an `int`. -/
theorem parse_encode (isResp : Bool) (memory : HttpParser) (max : Int) (msg after : HttpMessage)
    (part1 part2 part3 : Bytes) (vectors : List Bytes) (hmax : max ≤ 2147483647)
    (hstart : StartsWith isResp (part1, part2, part3) msg.parser)
    (hpart1 : charSpace ∉ part1 ∧ charCr ∉ part1 ∧ charNul ∉ part1)
    (hpart2 : charSpace ∉ part2 ∧ charCr ∉ part2 ∧ charNul ∉ part2)
    (hpart3 : charCr ∉ part3 ∧ charNul ∉ part3)
    (hshort : (joinParts (part1, part2, part3)).length ≤ 8191)
    (hstatus : isResp = true → hasNoBody part2 = false)
    (hlines : ∀ line ∈ msg.parser.headerList, GoodLine line)
    (hencoding : ∀ line ∈ msg.parser.headerList, isTransferEncoding line.name = false)
    (hlength : (msg.parser.headerList.filter HeaderLine.isNamedContentLength).map HeaderLine.value
      = [decimal msg.outputBodySize])
    (hbody : msg.outputBodySize ≤ intMax)
    (hencode : msg.encode max = .ok (vectors, after)) :
    ∃ p, httpParserAppendMessage vectors.flatten (freshParser isResp false memory)
        = (1, vectors.flatten.length, p) ∧
      StartsWith isResp (part1, part2, part3) p ∧
      p.headerList.map HeaderLine.pair = msg.parser.headerList.map HeaderLine.pair ∧
      httpParserGetBody p = some (msg.body, msg.body.length) := by
  have hcr : charCr ∉ joinParts (part1, part2, part3) :=
    not_mem_joinParts (by decide) hpart1.2.1 hpart2.2.1 hpart3.1
  have hnul : charNul ∉ joinParts (part1, part2, part3) :=
    not_mem_joinParts (by decide) hpart1.2.2 hpart2.2.2 hpart3.2
  obtain ⟨htext, hsize⟩ := text_of_encode hencode hmax hstart hnul hshort hbody hlines
  have hcontent : GoodStartLine (joinParts (part1, part2, part3)) (part1, part2, part3) :=
    ⟨hshort, ⟨hcr, hnul⟩, splitStartLine_of_parts hpart1.1 hpart2.1⟩
  have hfrom : lengthFrom isResp msg.parser.headerList = msg.body.length := by
    rw [lengthFrom, contentLengthAfter_of_named hlength (decimal_digit _),
      sizeOfInt_atoi_of_le (decimal_digit _) (by rw [numeralOf_decimal]; exact hbody),
      numeralOf_decimal, msg.size_eq]
    rfl
  obtain ⟨p, happend, hreceived⟩ := append_text memory hcontent (fun line hline =>
    ⟨(hlines line hline).2.1, (hlines line hline).2.2, hencoding line hline⟩) hstatus htext hsize
    hfrom.le
  rw [hfrom, List.take_length] at hreceived
  refine ⟨p, ?_, hreceived.start, hreceived.headers, hreceived.body⟩
  rw [happend, hfrom, htext, List.length_append]

/-- A response whose length was written over a longer number, with its body in three blocks. -/
def answerMessage : HttpMessage :=
  let msg := HttpMessage.init true zeroedParser
  let parser := httpParserSetPhrase (bytesOf "Not Found")
    (httpParserSetCode (bytesOf "404") (httpParserSetVersion (bytesOf "HTTP/1.1") msg.parser))
  let parser := httpParserSetHeader (bytesOf "content-length") (bytesOf "5")
    (httpParserAddHeader (bytesOf "X") [] (httpParserAddHeader (bytesOf "Content-Length")
      (bytesOf "1024") parser))
  { msg with parser := parser }
    |>.appendOutputBody (bytesOf "hel") |>.appendOutputBody (bytesOf "l") |>.appendOutputBody (bytesOf "o")

/-- The last two of 11 vectors hold the body, so `combine_from` has put two blocks together. -/
theorem parse_encode_answerMessage :
    ∃ vectors after p, answerMessage.encode 11 = .ok (vectors, after) ∧ vectors.length = 11 ∧
      httpParserAppendMessage vectors.flatten (freshParser true false zeroedParser)
        = (1, vectors.flatten.length, p) ∧
      httpParserGetBody p = some (bytesOf "hello", 5) := by
  have hok : ∃ vectors after, answerMessage.encode 11 = .ok (vectors, after) ∧
      vectors.length = 11 := ⟨_, _, rfl, by decide +kernel⟩
  obtain ⟨vectors, after, hencode, hcount⟩ := hok
  obtain ⟨p, happend, -, -, hbody⟩ := parse_encode true zeroedParser 11 answerMessage after
    (bytesOf "HTTP/1.1") (bytesOf "404") (bytesOf "Not Found") vectors (by decide)
    (by decide +kernel) (by decide +kernel) (by decide +kernel) (by decide +kernel)
    (by decide +kernel) (by decide +kernel) (by decide +kernel) (by decide +kernel)
    (by decide +kernel) (by decide +kernel) hencode
  exact ⟨vectors, after, p, hencode, hcount, happend, hbody⟩

end WorkflowModel.Http
