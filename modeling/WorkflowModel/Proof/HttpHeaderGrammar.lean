import WorkflowModel.Http.Message
import WorkflowModel.Proof.HttpFraming

/-!
# What the header scanners read

A header field is a name up to the first colon, blanks, and a body up to a carriage return, with the
line end behind it. A head is empty lines, a start line and fields. The header loop reads every head
as a whole, and whatever it has read is one: so the headers it stores are the fields of the text, in
their order.
-/

namespace WorkflowModel.Http

open WorkflowModel Resume

/-- `name: value` with the line end. -/
def headerText (header : Bytes × Bytes) : Bytes :=
  header.1 ++ [charColon, charSpace] ++ header.2 ++ crlf

def HeaderLine.pair (line : HeaderLine) : Bytes × Bytes := (line.name, line.value)

/-- A line as `http_parser_add_header` and `http_parser_set_header` write it. Behind the line end there
may be bytes of an older value. -/
structure HeaderLine.Spells (line : HeaderLine) (header : Bytes × Bytes) : Prop where
  nameLen : line.nameLen = header.1.length
  valueLen : line.valueLen = header.2.length
  buf : ∃ behind, line.buf = headerText header ++ behind

instance (line : HeaderLine) (header : Bytes × Bytes) : Decidable (line.Spells header) :=
  decidable_of_iff (line.nameLen = header.1.length ∧ line.valueLen = header.2.length ∧
      headerText header <+: line.buf)
    ⟨fun h => ⟨h.1, h.2.1, h.2.2.imp fun _ hbuf => hbuf.symm⟩,
      fun h => ⟨h.nameLen, h.valueLen, h.buf.imp fun _ hbuf => hbuf.symm⟩⟩

def isTransferEncoding (name : Bytes) : Bool := strcaseEq name (bytesOf "Transfer-Encoding")

section Lines

variable {line : HeaderLine} {header : Bytes × Bytes}

theorem HeaderLine.Spells.name_eq (h : line.Spells header) : line.name = header.1 := by
  obtain ⟨behind, hbuf⟩ := h.buf
  rw [HeaderLine.name, h.nameLen, hbuf, Int.toNat_natCast]
  simp only [headerText, List.append_assoc, List.take_left]

theorem HeaderLine.Spells.value_eq (h : line.Spells header) : line.value = header.2 := by
  obtain ⟨behind, hbuf⟩ := h.buf
  have hdrop : line.buf.drop (header.1.length + 2) = header.2 ++ (crlf ++ behind) := by
    rw [hbuf, headerText, List.append_assoc, List.append_assoc, List.append_assoc]
    rw [← List.append_assoc header.1]
    exact List.drop_left' (by simp)
  rw [HeaderLine.value, h.nameLen, h.valueLen, Int.toNat_natCast, Int.toNat_natCast, hdrop,
    List.take_left]

theorem HeaderLine.Spells.pair_eq (h : line.Spells header) : line.pair = header := by
  rw [HeaderLine.pair, h.name_eq, h.value_eq]

theorem length_headerText (header : Bytes × Bytes) :
    (headerText header).length = header.1.length + 2 + header.2.length + 2 := by
  simp only [headerText, crlf, List.length_append, List.length_cons, List.length_nil]

theorem intOfLong_of_lt {n : Nat} (h : n < 2 ^ 31) : intOfLong (n : Int) = n := by
  apply Int.bmod_eq_of_le <;> omega

theorem spells_of_addHeader {name value : Bytes} (p : HttpParser) (hname : name.length < 2 ^ 31)
    (hvalue : value.length < 2 ^ 31) :
    ∃ line : HeaderLine, (httpParserAddHeader name value p).headerList = p.headerList ++ [line] ∧
      line.Spells (name, value) := by
  have hnameLen := intOfLong_of_lt hname
  have hvalueLen := intOfLong_of_lt hvalue
  refine ⟨_, rfl, ?_, ?_, [], ?_⟩
  · rw [hnameLen]
  · rw [hvalueLen]
  · simp [headerText, crlf]

end Lines

/-- The three parts of a start line, where the message classes keep them. -/
def StartsWith (isResp : Bool) (parts : Bytes × Bytes × Bytes) (p : HttpParser) : Prop :=
  if isResp then
    p.method = none ∧ p.version = some parts.1 ∧ p.code = some parts.2.1 ∧ p.phrase = some parts.2.2
  else
    p.method = some parts.1 ∧ p.uri = some parts.2.1 ∧ p.version = some parts.2.2

instance (isResp : Bool) (parts : Bytes × Bytes × Bytes) (p : HttpParser) :
    Decidable (StartsWith isResp parts p) := by
  unfold StartsWith
  infer_instance

structure GoodStartLine (content : Bytes) (parts : Bytes × Bytes × Bytes) : Prop where
  short : content.length ≤ 8191
  plain : charCr ∉ content ∧ charNul ∉ content
  split : splitStartLine content = some parts

structure FieldName where
  name : Bytes
  short : name.length < httpHeaderNameMax
  notEmptyLine : startsWithCrlf name = false
  plainName : charColon ∉ name ∧ charNul ∉ name

/-- A name with what the value scanner reads behind the colon. -/
structure Field extends FieldName where
  blanks : Bytes
  body : Bytes
  blank : ∀ c ∈ blanks, isBlank c = true
  leading : body.head?.any isBlank = false
  fits : body.length < httpHeaderValueMax
  plainBody : charCr ∉ body ∧ charNul ∉ body

def Field.text (f : Field) : Bytes := f.name ++ charColon :: (f.blanks ++ (f.body ++ crlf))

def Field.entry (f : Field) : Bytes × Bytes := (f.name, trimRight f.body)

def emptyLines (n : Nat) : Bytes := (List.replicate n crlf).flatten

structure Head where
  empties : Nat
  content : Bytes
  parts : Bytes × Bytes × Bytes
  fields : List Field
  start : GoodStartLine content parts

def Head.text (head : Head) : Bytes :=
  emptyLines head.empties ++ (head.content ++ crlf) ++ head.fields.flatMap Field.text

def Head.entries (head : Head) : List (Bytes × Bytes) := head.fields.map Field.entry

def Head.add (head : Head) (f : Field) : Head := { head with fields := head.fields ++ [f] }

theorem Head.text_add (head : Head) (f : Field) : (head.add f).text = head.text ++ f.text := by
  simp only [Head.text, Head.add, List.flatMap_append, List.flatMap_cons, List.flatMap_nil,
    List.append_nil, List.append_assoc]

theorem Head.entries_add (head : Head) (f : Field) :
    (head.add f).entries = head.entries ++ [f.entry] := by
  simp only [Head.entries, Head.add, List.map_append, List.map_cons, List.map_nil]

theorem emptyLines_succ (n : Nat) : emptyLines (n + 1) = emptyLines n ++ crlf := by
  rw [emptyLines, List.replicate_succ', List.flatten_append, List.flatten_singleton]
  rfl

theorem length_emptyLines (n : Nat) : (emptyLines n).length = 2 * n := by
  induction n with
  | zero => rfl
  | succ n ih =>
      rw [emptyLines_succ, List.length_append, ih]
      rfl

/-- The test of `__match_message_header` that makes a message chunked. -/
def makesChunked (header : Bytes × Bytes) : Bool :=
  isTransferEncoding header.1 && (header.2.length != 8 || !strcaseEq header.2 (bytesOf "identity"))

structure Stored (head : Head) (p : HttpParser) : Prop where
  parts : StartsWith p.isResp head.parts p
  code : p.isResp = false → p.code = none
  list : p.headerList.map HeaderLine.pair = head.entries
  chunked : p.chunked = head.entries.any makesChunked

theorem actOnHeader_frame (name value : Bytes) (p : HttpParser) :
    (actOnHeader name value p).chunked = (p.chunked || makesChunked (name, value)) ∧
    (actOnHeader name value p).isResp = p.isResp ∧ (actOnHeader name value p).method = p.method ∧
    (actOnHeader name value p).uri = p.uri ∧ (actOnHeader name value p).version = p.version ∧
    (actOnHeader name value p).phrase = p.phrase := by
  have hskip : name.length ≠ 17 → makesChunked (name, value) = false := by
    intro hne
    rw [makesChunked, Bool.and_eq_false_iff]
    left
    rw [isTransferEncoding, strcaseEq, beq_eq_false_iff_ne]
    intro heq
    have hlength := congrArg List.length heq
    simp only [List.length_map] at hlength
    exact hne (hlength.trans (by decide))
  unfold actOnHeader
  split
  · rw [hskip (by omega), Bool.or_false]
    unfold matchConnection matchExpect
    split_ifs <;> exact ⟨rfl, rfl, rfl, rfl, rfl, rfl⟩
  · rw [hskip (by omega), Bool.or_false]
    unfold matchConnection
    split_ifs <;> exact ⟨rfl, rfl, rfl, rfl, rfl, rfl⟩
  · rw [hskip (by omega), Bool.or_false]
    unfold matchContentLength
    split_ifs <;> exact ⟨rfl, rfl, rfl, rfl, rfl, rfl⟩
  · unfold matchTransferEncoding
    split_ifs with h
    · have hmakes : makesChunked (name, value) = true := h
      rw [hmakes, Bool.or_true]
      exact ⟨rfl, rfl, rfl, rfl, rfl, rfl⟩
    · have hmakes : makesChunked (name, value) = false := by
        rw [← Bool.not_eq_true]
        exact h
      rw [hmakes, Bool.or_false]
      exact ⟨rfl, rfl, rfl, rfl, rfl, rfl⟩
  · rename_i hne
    rw [hskip hne, Bool.or_false]
    exact ⟨rfl, rfl, rfl, rfl, rfl, rfl⟩

theorem StartsWith.of_eq {isResp : Bool} {parts : Bytes × Bytes × Bytes} {p q : HttpParser}
    (h : StartsWith isResp parts p) (hmethod : q.method = p.method) (huri : q.uri = p.uri)
    (hversion : q.version = p.version) (hcode : q.code = p.code) (hphrase : q.phrase = p.phrase) :
    StartsWith isResp parts q := by
  unfold StartsWith at h ⊢
  rw [hmethod, huri, hversion, hcode, hphrase]
  exact h

theorem trimRight_of_trailing {value : Bytes} (h : value.getLast?.any isBlank = false) :
    trimRight value = value := by
  have hdrop : value.reverse.dropWhile isBlank = value.reverse := by
    rw [← List.head?_reverse] at h
    cases hreverse : value.reverse with
    | nil => rfl
    | cons c rest =>
        rw [hreverse, List.head?_cons, Option.any_some] at h
        rw [List.dropWhile_cons_of_neg (by simp [h])]
  rw [trimRight, hdrop, List.reverse_reverse]

theorem Field.length_entry_lt (f : Field) :
    f.entry.1.length < 2 ^ 31 ∧ f.entry.2.length < 2 ^ 31 :=
  ⟨lt_trans f.short (by decide),
    lt_of_le_of_lt (isPrefix_trimRight f.body).length_le (lt_trans f.fits (by decide))⟩

theorem Stored.matchMessageHeader {head : Head} {p : HttpParser} (h : Stored head p) (f : Field) :
    Stored (head.add f) (matchMessageHeader f.entry.1 f.entry.2 p) := by
  obtain ⟨hchunked, hresp, hmethod, huri, hversion, hphrase⟩ :=
    actOnHeader_frame f.entry.1 f.entry.2 p
  obtain ⟨hlist, -, hcode, -⟩ := actOnHeader_lengths (p := p) f.entry.1 f.entry.2
  obtain ⟨line, hline, hspells⟩ := spells_of_addHeader (actOnHeader f.entry.1 f.entry.2 p)
    f.length_entry_lt.1 f.length_entry_lt.2
  rw [matchMessageHeader_eq]
  refine ⟨?_, ?_, ?_, ?_⟩
  · have hparts := h.parts
    rw [← hresp] at hparts
    exact hparts.of_eq hmethod huri hversion hcode hphrase
  · exact fun hrequest => hcode.trans (h.code (hresp.symm.trans hrequest))
  · rw [hline, hlist, List.map_append, h.list, Head.entries_add, List.map_singleton, hspells.pair_eq]
  · rw [Head.entries_add, List.any_append, ← h.chunked, List.any_cons, List.any_nil, Bool.or_false]
    exact hchunked

def afterStartLine (content : Bytes) (parts : Bytes × Bytes × Bytes) (p : HttpParser) :
    HttpParser :=
  { (if p.isResp then matchStatusLine parts.1 parts.2.1 parts.2.2 p
      else matchRequestLine parts.1 parts.2.1 parts.2.2 p) with
    headerOffset := p.headerOffset + (content.length + 2)
    headerState := .headerName }

theorem parseStartLine_of_line {ptr content : Bytes} {parts : Bytes × Bytes × Bytes} (p : HttpParser)
    (hcrlf : startsWithCrlf ptr = false)
    (hscan : scanLine httpStartLineMax true [] ptr = .line content)
    (hsplit : splitStartLine content = some parts) :
    parseStartLine ptr p = (1, afterStartLine content parts p) := by
  obtain ⟨part1, part2, part3⟩ := parts
  simp only [parseStartLine, hcrlf, Bool.false_eq_true, ↓reduceIte, hscan, hsplit, afterStartLine]
  cases p.isResp <;> rfl

theorem startsWithCrlf_append_colon {name : Bytes} (rest : Bytes) :
    startsWithCrlf (name ++ charColon :: rest) = startsWithCrlf name := by
  match name with
  | [] =>
      cases rest <;> simp [startsWithCrlf, charColon, charCr]
  | [c] => simp [startsWithCrlf, charColon, charLf]
  | c :: d :: more => simp [startsWithCrlf]

theorem startsWithCrlf_of_good {content : Bytes} {parts : Bytes × Bytes × Bytes} (rest : Bytes)
    (h : GoodStartLine content parts) : startsWithCrlf (content ++ (crlf ++ rest)) = false := by
  have hsplit := h.split
  match content with
  | [] => cases hsplit
  | c :: more =>
      have hc : c ≠ charCr := by
        rintro rfl
        exact h.plain.1 (by simp)
      cases more <;> simp [startsWithCrlf, crlf, hc]

theorem startsWithCrlf_iff {l : Bytes} : startsWithCrlf l = true ↔ ∃ rest, l = crlf ++ rest := by
  match l with
  | [] => simp [startsWithCrlf, crlf]
  | [c] => simp [startsWithCrlf, crlf]
  | c :: d :: rest =>
      simp only [startsWithCrlf, crlf, Bool.and_eq_true, beq_iff_eq, List.cons_append,
        List.nil_append, List.cons.injEq]
      constructor
      · rintro ⟨rfl, rfl⟩
        exact ⟨rest, rfl, rfl, rfl⟩
      · rintro ⟨rest', rfl, rfl, -⟩
        exact ⟨rfl, rfl⟩

section Steps

variable {ptr rest : Bytes} {p : HttpParser}

theorem step_emptyLine (hstate : p.headerState = .startLine) (hptr : ptr = crlf ++ rest) :
    parseHeaderStep p ptr = (.again, { p with headerOffset := p.headerOffset + 2 }) := by
  have hcrlf : startsWithCrlf ptr = true := startsWithCrlf_iff.mpr ⟨rest, hptr⟩
  rw [parseHeaderStep_startLine _ hstate]
  simp [parseStartLine, hcrlf]

theorem step_startLine {content : Bytes} {parts : Bytes × Bytes × Bytes}
    (hstate : p.headerState = .startLine) (hcontent : GoodStartLine content parts)
    (hptr : ptr = content ++ (crlf ++ rest)) :
    parseHeaderStep p ptr = (.again, afterStartLine content parts p) := by
  have hscan : scanLine httpStartLineMax true [] ptr = .line content := by
    rw [scanLine_eq_line_iff (Nat.zero_le _), hptr]
    exact ⟨content, rest, rfl, rfl, Nat.lt_succ_of_le hcontent.short, hcontent.plain.1,
      fun _ => hcontent.plain.2⟩
  have hcrlf : startsWithCrlf ptr = false := by
    rw [hptr]
    exact startsWithCrlf_of_good rest hcontent
  rw [parseHeaderStep_startLine _ hstate, parseStartLine_of_line p hcrlf hscan hcontent.split,
    verdictOf_one]

theorem step_name (f : FieldName) (hstate : p.headerState = .headerName)
    (hptr : ptr = f.name ++ charColon :: rest) :
    ∃ namebuf, cString namebuf.toList = f.name ∧ parseHeaderStep p ptr = (.again, { p with
      namebuf := namebuf
      headerOffset := p.headerOffset + (f.name.length + 1)
      headerState := .headerValue }) := by
  have hcrlf : startsWithCrlf (f.name ++ charColon :: rest) = false :=
    (startsWithCrlf_append_colon rest).trans f.notEmptyLine
  obtain ⟨namebuf, hstring, hstep⟩ := nameStep_of_name p hcrlf f.short f.plainName.1 f.plainName.2
  rw [parseHeaderStep_nameStep _ (by simp [hstate]) (by simp [hstate]), hptr]
  exact ⟨namebuf, hstring, hstep⟩

theorem step_value (f : Field) (hstate : p.headerState = .headerValue) (hname : p.name = f.name)
    (hrest : rest ≠ []) (hptr : ptr = f.blanks ++ (f.body ++ crlf) ++ rest) :
    parseHeaderStep p ptr = (.again, { matchMessageHeader f.entry.1 f.entry.2 p with
      headerOffset := p.headerOffset + (f.blanks ++ (f.body ++ crlf)).length
      headerState := .headerName }) := by
  have hround : valueRound [] ptr = .value f.entry.2 rest := by
    rw [valueRound_eq_value_iff]
    refine ⟨f.blanks, f.body, ?_, hrest, f.blank, by simp [f.leading], rfl, f.fits, f.plainBody⟩
    rw [hptr, crlf]
    simp only [List.append_assoc, List.cons_append, List.nil_append]
  have hlength : ptr.length - rest.length = (f.blanks ++ (f.body ++ crlf)).length := by
    rw [hptr, List.length_append, Nat.add_sub_cancel]
  rw [parseHeaderStep_headerValue _ hstate]
  rcases parseHeaderValue_cases ptr p with ⟨content, others, hcase, heq⟩ | ⟨hcase, -⟩ | ⟨hcase, -⟩
  · rw [hround, ValueRound.value.injEq] at hcase
    obtain ⟨rfl, rfl⟩ := hcase
    rw [heq, verdictOf_one, hlength, hname]
    rfl
  · rw [hround] at hcase
    cases hcase
  · rw [hround] at hcase
    cases hcase

theorem step_end (hstate : p.headerState = .headerName) (hptr : ptr = crlf ++ rest) :
    parseHeaderStep p ptr = (.stop 1,
      { p with headerOffset := p.headerOffset + 2, headerState := .headerComplete }) := by
  rw [parseHeaderStep_nameStep _ (by simp [hstate]) (by simp [hstate])]
  exact nameStep_of_crlf (startsWithCrlf_iff.mpr ⟨rest, hptr⟩)

end Steps

structure Unread (p : HttpParser) : Prop where
  list : p.headerList = []
  chunked : p.chunked = false
  method : p.method = none
  code : p.code = none

theorem unread_freshParser (isResp zeroBody : Bool) (memory : HttpParser) :
    Unread (freshParser isResp zeroBody memory) := by
  cases zeroBody <;> exact ⟨rfl, rfl, rfl, rfl⟩

theorem Unread.afterStartLine {p : HttpParser} (h : Unread p) {head : Head} (hfields : head.fields = []) :
    Stored head (afterStartLine head.content head.parts p) := by
  have hentries : head.entries = [] := by rw [Head.entries, hfields, List.map_nil]
  refine ⟨?_, ?_, ?_, ?_⟩
  · unfold Http.afterStartLine
    cases hresp : p.isResp with
    | true =>
        simp only [↓reduceIte, matchStatusLine, hresp]
        exact ⟨h.method, rfl, rfl, rfl⟩
    | false =>
        simp only [Bool.false_eq_true, ↓reduceIte, matchRequestLine, hresp]
        exact ⟨rfl, rfl, rfl⟩
  · unfold Http.afterStartLine
    cases hresp : p.isResp with
    | true => simp [matchStatusLine, hresp]
    | false => exact fun _ => h.code
  · rw [hentries]
    unfold Http.afterStartLine
    cases p.isResp <;> simp [matchStatusLine, matchRequestLine, h.list]
  · rw [hentries]
    unfold Http.afterStartLine
    cases p.isResp <;> simp [matchStatusLine, matchRequestLine, h.chunked]

/-- How far into `message` a head has been read. Behind the last field there is a byte that showed
where its value ends. -/
inductive HeadRead (message : Bytes) (p : HttpParser) : Prop
  | startLine (empties : Nat) (rest : Bytes) (hmessage : message = emptyLines empties ++ rest)
      (hoffset : p.headerOffset = (emptyLines empties).length) (hstate : p.headerState = .startLine)
      (unread : Unread p)
  | headerName (head : Head) (rest : Bytes) (hmessage : message = head.text ++ rest)
      (hoffset : p.headerOffset = head.text.length) (hstate : p.headerState = .headerName)
      (stored : Stored head p) (behind : head.fields = [] ∨ rest ≠ [])
  | headerValue (head : Head) (f : FieldName) (rest : Bytes)
      (hmessage : message = head.text ++ (f.name ++ charColon :: rest))
      (hoffset : p.headerOffset = head.text.length + (f.name.length + 1))
      (hstate : p.headerState = .headerValue) (stored : Stored head p) (hname : p.name = f.name)
  | headerComplete (head : Head) (rest : Bytes) (hmessage : message = head.text ++ (crlf ++ rest))
      (hoffset : p.headerOffset = head.text.length + 2) (hstate : p.headerState = .headerComplete)
      (stored : Stored head p)

theorem parseStartLine_reads (ptr : Bytes) (p : HttpParser) :
    (∃ rest, ptr = crlf ++ rest ∧
      parseStartLine ptr p = (1, { p with headerOffset := p.headerOffset + 2 })) ∨
    (∃ content parts rest, GoodStartLine content parts ∧ ptr = content ++ (crlf ++ rest) ∧
      parseStartLine ptr p = (1, afterStartLine content parts p)) ∨
    (parseStartLine ptr p).2 = p := by
  cases hcrlf : startsWithCrlf ptr with
  | true =>
      obtain ⟨rest, hrest⟩ := startsWithCrlf_iff.mp hcrlf
      exact Or.inl ⟨rest, hrest, by simp [parseStartLine, hcrlf]⟩
  | false =>
      right
      cases hscan : scanLine httpStartLineMax true [] ptr with
      | more => exact Or.inr (by simp [parseStartLine, hcrlf, hscan])
      | bad => exact Or.inr (by simp [parseStartLine, hcrlf, hscan])
      | line content =>
          cases hsplit : splitStartLine content with
          | none => exact Or.inr (by simp [parseStartLine, hcrlf, hscan, hsplit])
          | some parts =>
              obtain ⟨body, rest, hptr, hbody, hlt, hcr, hnul⟩ :=
                (scanLine_eq_line_iff (Nat.zero_le _)).mp hscan
              rw [List.nil_append] at hbody
              subst hbody
              exact Or.inl ⟨content, parts, rest, ⟨Nat.le_of_lt_succ hlt, ⟨hcr, hnul rfl⟩, hsplit⟩, hptr,
                parseStartLine_of_line p hcrlf hscan hsplit⟩

section Reads

variable {message : Bytes} {p : HttpParser}

theorem HeadRead.step (h : HeadRead message p) (hp : HeaderLive p) :
    HeadRead message (parseHeaderStep p (message.drop p.headerOffset)).2 := by
  cases h with
  | headerComplete head rest hmessage hoffset hstate stored => exact absurd hstate hp
  | startLine empties rest hmessage hoffset hstate unread =>
      have hdrop : message.drop p.headerOffset = rest := by
        rw [hoffset, hmessage, List.drop_left]
      rw [hdrop, parseHeaderStep_startLine _ hstate]
      rcases parseStartLine_reads rest p with ⟨behind, rfl, heq⟩ |
        ⟨content, parts, behind, hgood, rfl, heq⟩ | heq
      · rw [heq]
        refine .startLine (empties + 1) behind ?_ ?_ hstate ⟨unread.list, unread.chunked, unread.method, unread.code⟩
        · rw [hmessage, emptyLines_succ, List.append_assoc]
        · rw [emptyLines_succ, List.length_append, ← hoffset]
          rfl
      · rw [heq]
        refine .headerName ⟨empties, content, parts, [], hgood⟩ behind ?_ ?_ rfl
          (unread.afterStartLine rfl) (Or.inl rfl)
        · rw [hmessage, Head.text]
          simp only [List.flatMap_nil, List.append_nil, List.append_assoc]
        · rw [Head.text, List.flatMap_nil, List.append_nil, List.length_append, List.length_append,
            ← hoffset]
          rfl
      · rw [heq]
        exact .startLine empties rest hmessage hoffset hstate unread
  | headerName head rest hmessage hoffset hstate stored behind =>
      have hdrop : message.drop p.headerOffset = rest := by
        rw [hoffset, hmessage, List.drop_left]
      have hrefused : ∀ namebuf, HeadRead message (p.withName namebuf) := fun namebuf =>
        .headerName head rest hmessage hoffset hstate ⟨stored.parts, stored.code, stored.list, stored.chunked⟩ behind
      rw [hdrop]
      rcases nameInput_cases p.namebuf rest with hcrlf | ⟨hcrlf, name, more, rfl, hlt, hcolon, hnul⟩ |
        ⟨hcrlf, hcode⟩ | ⟨hcrlf, hcode⟩
      · obtain ⟨more, hmore⟩ := startsWithCrlf_iff.mp hcrlf
        rw [step_end hstate hmore]
        exact .headerComplete head more (by rw [hmessage, hmore]) (by rw [hoffset]) rfl
          ⟨stored.parts, stored.code, stored.list, stored.chunked⟩
      · rw [startsWithCrlf_append_colon] at hcrlf
        obtain ⟨namebuf, hstring, hstep⟩ := step_name ⟨name, hlt, hcrlf, hcolon, hnul⟩ hstate rfl
        rw [hstep]
        exact .headerValue head ⟨name, hlt, hcrlf, hcolon, hnul⟩ more hmessage (by rw [hoffset]) rfl
          ⟨stored.parts, stored.code, stored.list, stored.chunked⟩ hstring
      · rw [parseHeaderStep_nameStep _ (by simp [hstate]) (by simp [hstate]),
          nameStep_of_ne_one hstate hcrlf (by simp [hcode])]
        exact hrefused _
      · rw [parseHeaderStep_nameStep _ (by simp [hstate]) (by simp [hstate]),
          nameStep_of_ne_one hstate hcrlf (by simp [hcode])]
        exact hrefused _
  | headerValue head f rest hmessage hoffset hstate stored hname =>
      have hdrop : message.drop p.headerOffset = rest := by
        rw [hoffset, hmessage, ← List.drop_drop, List.drop_left, ← List.drop_drop, List.drop_left,
          List.drop_one, List.tail_cons]
      rw [hdrop]
      rcases parseHeaderValue_cases rest p with ⟨content, others, hround, -⟩ | ⟨-, heq⟩ | ⟨-, heq⟩
      · obtain ⟨blanks, body, hrest, hothers, hblanks, hhead, rfl, hlt, hplain⟩ :=
          valueRound_eq_value_iff.mp hround
        obtain ⟨g, hg⟩ : ∃ g : Field, g = ⟨f, blanks, body, hblanks, by simpa using hhead, hlt, hplain⟩ :=
          ⟨_, rfl⟩
        have hptr : rest = g.blanks ++ (g.body ++ crlf) ++ others := by
          rw [hrest, hg, crlf]
          simp only [List.append_assoc, List.cons_append, List.nil_append]
        have htext : g.text = f.name ++ charColon :: (g.blanks ++ (g.body ++ crlf)) := by
          rw [Field.text, hg]
        rw [step_value g hstate (by rw [hname, hg]) hothers hptr]
        refine .headerName (head.add g) others ?_ ?_ rfl ?_ (Or.inr hothers)
        · rw [hmessage, Head.text_add, htext, hptr]
          simp only [List.append_assoc, List.cons_append]
        · dsimp only
          rw [Head.text_add, htext, hoffset]
          simp only [List.length_append, List.length_cons]
          omega
        · have hstored := stored.matchMessageHeader g
          exact ⟨hstored.parts, hstored.code, hstored.list, hstored.chunked⟩
      · rw [parseHeaderStep_headerValue _ hstate, heq]
        exact .headerValue head f rest hmessage hoffset hstate stored hname
      · rw [parseHeaderStep_headerValue _ hstate, heq]
        exact .headerValue head f rest hmessage hoffset hstate stored hname

theorem HeadRead.run (h : HeadRead message p) (hp : headerMachine.Ready HeaderLive message p) :
    HeadRead message (headerMachine.run message p).2 :=
  Machine.run_keeps headerMachine_resumable (fun _ hq hread => hread.step hq.1) hp h

end Reads

structure AtName (message : Bytes) (head : Head) (p : HttpParser) : Prop where
  ready : headerMachine.Ready HeaderLive message p
  state : p.headerState = .headerName
  offset : p.headerOffset = head.text.length
  stored : Stored head p

section Reading

variable {message rest : Bytes} {p : HttpParser}

theorem run_step {q : HttpParser} (hp : headerMachine.Ready HeaderLive message p)
    (h : parseHeaderStep p (message.drop p.headerOffset) = (.again, q)) :
    headerMachine.run message p = headerMachine.run message q ∧
      headerMachine.Ready HeaderLive message q :=
  ⟨Machine.run_again headerMachine_resumable hp h, (hp.again headerMachine_resumable h).2⟩

theorem run_emptyLines : ∀ (n : Nat) {p : HttpParser}, headerMachine.Ready HeaderLive message p →
    p.headerState = .startLine → message.drop p.headerOffset = emptyLines n ++ rest →
    headerMachine.run message p
        = headerMachine.run message { p with headerOffset := p.headerOffset + 2 * n } ∧
      headerMachine.Ready HeaderLive message { p with headerOffset := p.headerOffset + 2 * n } := by
  intro n
  induction n with
  | zero =>
      intro p hp _ _
      exact ⟨rfl, hp⟩
  | succ n ih =>
      intro p hp hstate hmessage
      have hlines : emptyLines (n + 1) = crlf ++ emptyLines n := by
        rw [emptyLines, List.replicate_succ, List.flatten_cons]
        rfl
      rw [hlines, List.append_assoc] at hmessage
      obtain ⟨hrun, hready⟩ := run_step hp (step_emptyLine hstate hmessage)
      have hdrop : message.drop (p.headerOffset + 2) = emptyLines n ++ rest := by
        rw [← List.drop_drop, hmessage]
        rfl
      obtain ⟨hrun', hready'⟩ := ih hready hstate hdrop
      have hoffset : p.headerOffset + 2 + 2 * n = p.headerOffset + 2 * (n + 1) := by omega
      dsimp only at hrun' hready'
      rw [hoffset] at hrun' hready'
      exact ⟨hrun.trans hrun', hready'⟩

theorem run_start {head : Head} (hfields : head.fields = [])
    (hp : headerMachine.Ready HeaderLive message p) (hstate : p.headerState = .startLine)
    (hoffset : p.headerOffset = 0) (hunread : Unread p) (hmessage : message = head.text ++ rest) :
    ∃ q, headerMachine.run message p = headerMachine.run message q ∧ AtName message head q := by
  have htext : message = emptyLines head.empties ++ (head.content ++ (crlf ++ rest)) := by
    rw [hmessage, Head.text, hfields, List.flatMap_nil, List.append_nil]
    simp only [List.append_assoc]
  obtain ⟨hrun, hready⟩ := run_emptyLines head.empties hp hstate
    (by rw [hoffset, List.drop_zero, htext])
  have hdrop : message.drop (p.headerOffset + 2 * head.empties) = head.content ++ (crlf ++ rest) := by
    rw [htext, hoffset, Nat.zero_add, ← length_emptyLines, List.drop_left]
  obtain ⟨hrun', hready'⟩ := run_step hready (step_startLine hstate head.start hdrop)
  refine ⟨_, hrun.trans hrun', hready', rfl, ?_, ?_⟩
  · rw [Head.text, hfields, List.flatMap_nil, List.append_nil, List.length_append,
      List.length_append, length_emptyLines, afterStartLine, hoffset, Nat.zero_add]
    rfl
  · exact Unread.afterStartLine (p := { p with headerOffset := p.headerOffset + 2 * head.empties })
      ⟨hunread.list, hunread.chunked, hunread.method, hunread.code⟩ hfields

theorem AtName.run_field {head : Head} (h : AtName message head p) (f : Field) (hrest : rest ≠ [])
    (hmessage : message = head.text ++ (f.text ++ rest)) :
    ∃ q, headerMachine.run message p = headerMachine.run message q ∧
      AtName message (head.add f) q := by
  have hdrop : message.drop p.headerOffset
      = f.name ++ charColon :: (f.blanks ++ (f.body ++ crlf) ++ rest) := by
    rw [h.offset, hmessage, List.drop_left, Field.text]
    simp only [List.append_assoc, List.cons_append]
  obtain ⟨namebuf, hstring, hname⟩ := step_name f.toFieldName h.state hdrop
  obtain ⟨hrun, hready⟩ := run_step h.ready hname
  have hdrop' : message.drop (p.headerOffset + (f.name.length + 1))
      = f.blanks ++ (f.body ++ crlf) ++ rest := by
    rw [← List.drop_drop, hdrop, ← List.drop_drop, List.drop_left]
    rfl
  have hvalue := step_value f (p := { p with
    namebuf := namebuf
    headerOffset := p.headerOffset + (f.name.length + 1)
    headerState := .headerValue }) rfl hstring hrest hdrop'
  obtain ⟨hrun', hready'⟩ := run_step hready hvalue
  refine ⟨_, hrun.trans hrun', hready', rfl, ?_, ?_⟩
  · dsimp only
    rw [Head.text_add, List.length_append, h.offset, Field.text]
    simp only [List.length_append, List.length_cons]
    omega
  · have hstored := Stored.matchMessageHeader (p := { p with
      namebuf := namebuf
      headerOffset := p.headerOffset + (f.name.length + 1)
      headerState := .headerValue }) ⟨h.stored.parts, h.stored.code, h.stored.list, h.stored.chunked⟩ f
    exact ⟨hstored.parts, hstored.code, hstored.list, hstored.chunked⟩

theorem AtName.run_fields (hrest : rest ≠ []) : ∀ (fields : List Field) {head : Head} {p : HttpParser},
    AtName message head p → message = head.text ++ (fields.flatMap Field.text ++ rest) →
    ∃ q, headerMachine.run message p = headerMachine.run message q ∧
      AtName message { head with fields := head.fields ++ fields } q := by
  intro fields
  induction fields with
  | nil =>
      intro head p h _
      rw [List.append_nil]
      exact ⟨p, rfl, h⟩
  | cons f fields ih =>
      intro head p h hmessage
      rw [List.flatMap_cons, List.append_assoc] at hmessage
      obtain ⟨q, hrun, hq⟩ := h.run_field f (by simp [hrest]) hmessage
      obtain ⟨r, hrun', hr⟩ := ih hq (by
        rw [hmessage, Head.text_add, List.append_assoc])
      refine ⟨r, hrun.trans hrun', ?_⟩
      rw [Head.add, List.append_assoc] at hr
      exact hr

theorem run_head {head : Head} (hp : headerMachine.Ready HeaderLive message p)
    (hstate : p.headerState = .startLine) (hoffset : p.headerOffset = 0) (hunread : Unread p)
    (hrest : rest ≠ []) (hmessage : message = head.text ++ rest) :
    ∃ q, headerMachine.run message p = headerMachine.run message q ∧ AtName message head q := by
  obtain ⟨start, hstart⟩ : ∃ start : Head, start = { head with fields := [] } := ⟨_, rfl⟩
  have htext : head.text = start.text ++ head.fields.flatMap Field.text := by
    rw [Head.text, Head.text, hstart, List.flatMap_nil, List.append_nil]
  have hmessage' : message = start.text ++ (head.fields.flatMap Field.text ++ rest) := by
    rw [hmessage, htext, List.append_assoc]
  obtain ⟨q, hrun, hq⟩ := run_start (by rw [hstart]) hp hstate hoffset hunread hmessage'
  obtain ⟨r, hrun', hr⟩ := AtName.run_fields hrest head.fields hq hmessage'
  refine ⟨r, hrun.trans hrun', ?_⟩
  rw [hstart, List.nil_append] at hr
  exact hr

theorem AtName.run_end {head : Head} (h : AtName message head p)
    (hmessage : message = head.text ++ (crlf ++ rest)) :
    headerMachine.run message p = (.stop 1,
      { p with headerOffset := p.headerOffset + 2, headerState := .headerComplete }) := by
  have hdrop : message.drop p.headerOffset = crlf ++ rest := by
    rw [h.offset, hmessage, List.drop_left]
  have hstep : headerMachine.step p (message.drop (headerMachine.offset p)) = _ :=
    step_end h.state hdrop
  have hrun : headerMachine.run message p = _ := Machine.run_of_ne_again (by rw [hstep]; simp)
  exact hrun.trans hstep

end Reading

end WorkflowModel.Http
