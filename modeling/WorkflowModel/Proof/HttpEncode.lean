import WorkflowModel.Proof.HttpHeaderGrammar

/-!
# Parsing what `HttpMessage::encode` wrote

The vectors of a message spell its start line, its header lines, an empty line and its body. The
header loop of the parser reads such a text line by line, and the length of the body then comes from
the headers it has read.
-/

namespace WorkflowModel.Http

open WorkflowModel Resume

structure GoodName (name : Bytes) : Prop where
  nonempty : name ≠ []
  short : name.length ≤ 63
  plain : ∀ c ∈ name, c ≠ charColon ∧ c ≠ charCr ∧ c ≠ charLf ∧ c ≠ charNul ∧ c ≠ charSpace ∧
    c ≠ charTab

structure GoodValue (value : Bytes) : Prop where
  short : value.length ≤ 8191
  plain : charCr ∉ value ∧ charNul ∉ value
  leading : value.head?.any isBlank = false
  trailing : value.getLast?.any isBlank = false

instance (name : Bytes) : Decidable (GoodName name) :=
  decidable_of_iff (name ≠ [] ∧ name.length ≤ 63 ∧ name.all fun c => c ≠ charColon ∧ c ≠ charCr ∧
      c ≠ charLf ∧ c ≠ charNul ∧ c ≠ charSpace ∧ c ≠ charTab)
    ⟨fun h => ⟨h.1, h.2.1, by simpa using h.2.2⟩, fun h => ⟨h.nonempty, h.short, by simpa using h.plain⟩⟩

instance (value : Bytes) : Decidable (GoodValue value) :=
  decidable_of_iff (value.length ≤ 8191 ∧ (charCr ∉ value ∧ charNul ∉ value) ∧
      value.head?.any isBlank = false ∧ value.getLast?.any isBlank = false)
    ⟨fun h => ⟨h.1, h.2.1, h.2.2.1, h.2.2.2⟩, fun h => ⟨h.short, h.plain, h.leading, h.trailing⟩⟩

section Lines

variable {line : HeaderLine} {header : Bytes × Bytes}

theorem HeaderLine.Spells.vector_eq (h : line.Spells header) (hname : header.1.length < 2 ^ 31)
    (hvalue : header.2.length < 2 ^ 31) : line.vector = headerText header := by
  obtain ⟨behind, hbuf⟩ := h.buf
  have hint : ∀ n : Nat, n < 2 ^ 31 → sizeOfInt (n : Int) = n := by
    intro n hn
    unfold sizeOfInt sizeModulus
    omega
  have hlength : sizeAdd (sizeAdd (sizeAdd (sizeOfInt line.nameLen) 2) (sizeOfInt line.valueLen)) 2
      = (headerText header).length := by
    rw [h.nameLen, h.valueLen, hint _ hname, hint _ hvalue, length_headerText]
    unfold sizeAdd sizeModulus
    omega
  rw [HeaderLine.vector, hlength, hbuf, List.take_left]

/-- Writing a value over another one keeps the line in order, with the new name or the old. -/
theorem HeaderLine.Spells.setValue_of_length {name value : Bytes} (h : line.Spells header)
    (hlength : line.nameLen = name.length) (hvalue : value.length < 2 ^ 31) :
    ∃ spelled, (line.setValue name value).Spells (spelled, value) ∧
      (spelled = name ∨ spelled = line.name) := by
  have hvalueLen := intOfLong_of_lt hvalue
  have hname : header.1.length = name.length := by
    have := h.nameLen.symm.trans hlength
    omega
  by_cases hlonger : sizeOfInt line.valueLen < value.length
  · refine ⟨name, ⟨?_, ?_, [], ?_⟩, Or.inl rfl⟩
    · rw [HeaderLine.setValue, hlength]
    · rw [HeaderLine.setValue, hvalueLen]
    · simp [HeaderLine.setValue, hlonger, headerText]
  · obtain ⟨behind, hbuf⟩ := h.buf
    have htake : line.buf.take (name.length + 2) = header.1 ++ [charColon, charSpace] := by
      rw [hbuf, headerText, List.append_assoc, List.append_assoc]
      exact List.take_left' (by simp [hname])
    refine ⟨header.1, ⟨?_, ?_, line.buf.drop (name.length + 2 + value.length + 2), ?_⟩,
      Or.inr h.name_eq.symm⟩
    · rw [HeaderLine.setValue, h.nameLen]
    · rw [HeaderLine.setValue, hvalueLen]
    · simp only [HeaderLine.setValue, if_neg hlonger, htake, headerText]

theorem HeaderLine.Spells.setValue {name value : Bytes} (h : line.Spells header)
    (hnamed : line.isNamed name = true) (hvalue : value.length < 2 ^ 31) :
    ∃ spelled, (line.setValue name value).Spells (spelled, value) ∧
      strcaseEq spelled name = true := by
  obtain ⟨hlength, hcase⟩ : line.nameLen = name.length ∧ strcaseEq line.name name = true := by
    simpa [HeaderLine.isNamed] using hnamed
  obtain ⟨spelled, hspells, hname⟩ := h.setValue_of_length hlength hvalue
  refine ⟨spelled, hspells, ?_⟩
  obtain rfl | rfl := hname
  · exact beq_self_eq_true _
  · exact hcase

end Lines

theorem GoodName.length_lt {name : Bytes} (h : GoodName name) : name.length < 2 ^ 31 :=
  lt_of_le_of_lt h.short (by decide)

theorem GoodValue.length_lt {value : Bytes} (h : GoodValue value) : value.length < 2 ^ 31 :=
  lt_of_le_of_lt h.short (by decide)

theorem splitStartLine_of_parts {part1 part2 part3 : Bytes} (h1 : charSpace ∉ part1)
    (h2 : charSpace ∉ part2) :
    splitStartLine (part1 ++ [charSpace] ++ part2 ++ [charSpace] ++ part3)
      = some (part1, part2, part3) := by
  have hline : part1 ++ [charSpace] ++ part2 ++ [charSpace] ++ part3
      = part1 ++ charSpace :: (part2 ++ charSpace :: part3) := by
    simp
  rw [hline, splitStartLine, span_of_cut _ h1]
  simp only [span_of_cut _ h2]

/-- The length that the headers leave in `content_length`. -/
def lengthAfter (start : Nat) (headers : List (Bytes × Bytes)) : Nat :=
  headers.foldl (fun length header =>
    if strcaseEq header.1 (bytesOf "Content-Length") && header.2.head?.any isDigit then
      sizeOfInt (atoi header.2) else length) start

theorem contentLengthAfter_eq (start : Nat) (lines : List HeaderLine) :
    contentLengthAfter start lines = lengthAfter start (lines.map HeaderLine.pair) := by
  rw [lengthAfter, List.foldl_map]
  rfl

def headText (content : Bytes) (headers : List (Bytes × Bytes)) : Bytes :=
  content ++ (crlf ++ (headers.flatMap headerText ++ crlf))

theorem headText_ne_nil (content : Bytes) (headers : List (Bytes × Bytes)) (body : Bytes) :
    headText content headers ++ body ≠ [] := by
  simp [headText, crlf]

section Message

variable {isResp : Bool} {content : Bytes} {parts : Bytes × Bytes × Bytes}
  {headers : List (Bytes × Bytes)}

theorem exists_field {header : Bytes × Bytes} (hname : GoodName header.1)
    (hvalue : GoodValue header.2) : ∃ f : Field, f.text = headerText header ∧ f.entry = header := by
  have hcrlf : startsWithCrlf header.1 = false := by
    have hplain := hname.plain
    match hcons : header.1 with
    | [] => rfl
    | [c] => rfl
    | c :: d :: more =>
        have hc : c ≠ charCr := (hplain c (by simp [hcons])).2.1
        simp [startsWithCrlf, hc]
  have hcolon : charColon ∉ header.1 := fun hmem => (hname.plain _ hmem).1 rfl
  have hnul : charNul ∉ header.1 := fun hmem => (hname.plain _ hmem).2.2.2.1 rfl
  refine ⟨⟨⟨header.1, Nat.lt_succ_of_le hname.short, hcrlf, hcolon, hnul⟩, [charSpace], header.2,
    by simp [isBlank], hvalue.leading, Nat.lt_succ_of_le hvalue.short, hvalue.plain⟩, ?_, ?_⟩
  · simp [Field.text, headerText]
  · rw [Field.entry, trimRight_of_trailing hvalue.trailing]

theorem exists_fields (h : ∀ header ∈ headers, GoodName header.1 ∧ GoodValue header.2) :
    ∃ fields : List Field, fields.flatMap Field.text = headers.flatMap headerText ∧
      fields.map Field.entry = headers := by
  induction headers with
  | nil => exact ⟨[], rfl, rfl⟩
  | cons header headers ih =>
      obtain ⟨⟨hname, hvalue⟩, hheaders⟩ := List.forall_mem_cons.mp h
      obtain ⟨f, htext, hentry⟩ := exists_field hname hvalue
      obtain ⟨fields, htexts, hentries⟩ := ih hheaders
      refine ⟨f :: fields, ?_, ?_⟩
      · rw [List.flatMap_cons, List.flatMap_cons, htext, htexts]
      · rw [List.map_cons, hentry, hentries]

/-- The header of a message in this form is read as a whole. -/
theorem header_run_text {p : HttpParser} {body : Bytes} (hp : CallReady p)
    (hstate : p.headerState = .startLine) (hoffset : p.headerOffset = 0) (hresp : p.isResp = isResp)
    (hunread : Unread p) (hcontent : GoodStartLine content parts)
    (hheaders : ∀ header ∈ headers, GoodName header.1 ∧ GoodValue header.2 ∧
      isTransferEncoding header.1 = false)
    (hmessage : p.msgbuf = headText content headers ++ body) :
    ∃ q, headerMachine.run p.msgbuf p = (.stop 1, q) ∧ StartsWith isResp parts q ∧
      (isResp = false → q.code = none) ∧ q.headerList.map HeaderLine.pair = headers ∧
      q.chunked = false ∧ q.headerState = .headerComplete ∧
      q.headerOffset = (headText content headers).length := by
  have hlive : HeaderLive p := by
    rw [HeaderLive, hstate]
    simp
  obtain ⟨fields, htext, hentries⟩ :=
    exists_fields fun header hheader => (hheaders header hheader).imp_right And.left
  obtain ⟨head, hhead⟩ : ∃ head : Head, head = ⟨0, content, parts, fields, hcontent⟩ := ⟨_, rfl⟩
  have hheadText : headText content headers = head.text ++ crlf := by
    rw [hhead, Head.text, htext, headText, emptyLines]
    simp only [List.replicate_zero, List.flatten_nil, List.nil_append, List.append_assoc]
  have hdrop : p.msgbuf = head.text ++ (crlf ++ body) := by
    rw [hmessage, hheadText, List.append_assoc]
  obtain ⟨q, hrun, hq⟩ :=
    run_head (hp.ready hlive) hstate hoffset hunread (by simp [crlf]) hdrop
  have hlast := hrun.trans (hq.run_end hdrop)
  have hqresp := header_run_isResp (hp.ready hlive)
  rw [hlast] at hqresp
  have hqresp : q.isResp = isResp := hqresp.trans hresp
  have hqentries : head.entries = headers := by rw [Head.entries, hhead, hentries]
  refine ⟨_, hlast, ?_, ?_, hq.stored.list.trans hqentries, ?_, rfl, ?_⟩
  · have hparts := hq.stored.parts
    rw [hqresp, hhead] at hparts
    exact hparts
  · exact fun hrequest => hq.stored.code (hqresp.trans hrequest)
  · rw [hq.stored.chunked, hqentries, List.any_eq_false]
    intro header hheader
    simp [makesChunked, (hheaders header hheader).2.2]
  · dsimp only
    rw [hheadText, List.length_append, hq.offset]
    rfl

end Message

end WorkflowModel.Http
