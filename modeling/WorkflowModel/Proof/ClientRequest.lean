import WorkflowModel.Client.HttpTask
import WorkflowModel.Proof.HttpRoundTrip

/-!
# Requests that say how long they are

`ComplexHttpTask::message_out` adds a `Content-Length` for two methods only. A receiver takes a
request without one to end behind its header. So a request that the user gave no length arrives as a
whole when its method is one of the two, or when it has no body.
-/

namespace WorkflowModel.Client

open WorkflowModel Http

/-- The bytes are one request with the given body, and nothing is left over. -/
structure SelfDelimiting (memory : HttpParser) (stream body : Bytes) : Prop where
  complete : (httpParserAppendMessage stream (freshParser false false memory)).1 = 1
  consumed : (httpParserAppendMessage stream (freshParser false false memory)).2.1 = stream.length
  body : httpParserGetBody (httpParserAppendMessage stream (freshParser false false memory)).2.2
    = some (body, body.length)

/-- `out` is `req` with more headers behind its own. -/
structure Extends (req out : HttpMessage) (extra : List HeaderLine) : Prop where
  body : out.outputBody = req.outputBody
  size : out.outputBodySize = req.outputBodySize
  lines : out.parser.headerList = req.parser.headerList ++ extra
  parts : ∀ {parts}, StartsWith false parts req.parser → StartsWith false parts out.parser
  method : out.parser.method = req.parser.method
  good : ∀ line ∈ extra, GoodLine line ∧ isTransferEncoding line.name = false

theorem extends_refl (req : HttpMessage) : Extends req req [] where
  body := rfl
  size := rfl
  lines := by simp
  parts := id
  method := rfl
  good := by simp

theorem Extends.trans {req middle out : HttpMessage} {first second : List HeaderLine}
    (h : Extends req middle first) (h' : Extends middle out second) :
    Extends req out (first ++ second) where
  body := h'.body.trans h.body
  size := h'.size.trans h.size
  lines := by rw [h'.lines, h.lines, List.append_assoc]
  parts := fun hparts => h'.parts (h.parts hparts)
  method := h'.method.trans h.method
  good := fun line hline => (List.mem_append.mp hline).elim (h.good line) (h'.good line)

theorem extends_addHeader {name value : Bytes} (req : HttpMessage) (hname : GoodName name)
    (hvalue : GoodValue value) (hencoding : isTransferEncoding name = false) :
    ∃ line : HeaderLine, line.pair = (name, value) ∧
      Extends req { req with parser := httpParserAddHeader name value req.parser } [line] := by
  obtain ⟨line, hlist, hspells⟩ :=
    spells_of_addHeader req.parser hname.length_lt hvalue.length_lt
  refine ⟨line, hspells.pair_eq, rfl, rfl, hlist, id, rfl, ?_⟩
  intro other hother
  rw [List.mem_singleton.mp hother, GoodLine, hspells.pair_eq, hspells.name_eq, hspells.value_eq]
  exact ⟨⟨hspells, hname, hvalue⟩, hencoding⟩

theorem length_decimalDigits : ∀ (fuel n k : Nat), n < 10 ^ (k + 1) →
    (decimalDigits fuel n).length ≤ k + 1 := by
  intro fuel
  induction fuel with
  | zero => intros; simp [decimalDigits]
  | succ fuel ih =>
      intro n k hn
      rw [decimalDigits]
      split_ifs with hsmall
      · simp
      · cases k with
        | zero => omega
        | succ k =>
            have hdiv : n / 10 < 10 ^ (k + 1) := by
              apply Nat.div_lt_of_lt_mul
              rwa [← Nat.pow_succ']
            have := ih (n / 10) k hdiv
            rw [List.length_append, List.length_singleton]
            omega

theorem goodValue_decimal {n : Nat} (h : n ≤ intMax) : GoodValue (decimal n) := by
  obtain ⟨-, -, hall⟩ := decimalDigits_spec (n + 1) n (Nat.lt_succ_self n)
  have hplain : ∀ c, isDigit c = false → c ∉ decimal n := by
    intro c hc hmem
    rw [hall c hmem] at hc
    cases hc
  have hblank : ∀ c ∈ decimal n, isBlank c = false := by
    intro c hc
    by_contra hblank
    have hdigit := hall c hc
    rw [Bool.not_eq_false, isBlank, Bool.or_eq_true, beq_iff_eq, beq_iff_eq] at hblank
    rcases hblank with rfl | rfl
    · exact absurd hdigit (by decide)
    · exact absurd hdigit (by decide)
  refine ⟨?_, ⟨hplain _ (by decide), hplain _ (by decide)⟩, ?_, ?_⟩
  · have hlength := length_decimalDigits (n + 1) n 9 (by unfold intMax at h; omega)
    exact hlength.trans (by decide)
  · cases hhead : (decimal n).head? with
    | none => rfl
    | some c => exact hblank c (List.mem_of_mem_head? (by rw [hhead]; rfl))
  · cases hlast : (decimal n).getLast? with
    | none => rfl
    | some c => exact hblank c (List.mem_of_mem_getLast? (by rw [hlast]; rfl))

section MessageOut

variable {req : HttpMessage}

theorem find_eq_none {name : Bytes} {parser : HttpParser}
    (h : ∀ line ∈ parser.headerList, strcaseEq line.name name = false) :
    httpHeaderCursorFind name parser = none := by
  apply List.find?_eq_none.mpr
  intro line hline
  simp [HeaderLine.isNamed, h line hline]

def Unframed (parser : HttpParser) : Prop :=
  ∀ line ∈ parser.headerList,
    line.isNamedContentLength = false ∧ isTransferEncoding line.name = false

instance (parser : HttpParser) : Decidable (Unframed parser) :=
  inferInstanceAs (Decidable (∀ line ∈ parser.headerList, _))

theorem withContentLength_eq (h : Unframed req.parser) :
    withContentLength req =
      if req.parser.method.any takesLength then
        { req with
          parser := httpParserAddHeader (bytesOf "Content-Length") (decimal req.outputBodySize)
            req.parser }
      else
        req := by
  have hencoding : isChunkedRequest req.parser = false := by
    rw [isChunkedRequest, find_eq_none fun line hline => (h line hline).2]
  have hlength := find_eq_none fun line hline => (h line hline).1
  simp only [withContentLength, hencoding, hlength, Bool.not_false, Bool.true_and]

/-- The length that `message_out` adds is the only one. -/
theorem withContentLength_spec (h : Unframed req.parser) (hbody : req.outputBodySize ≤ intMax) :
    ∃ extra, Extends req (withContentLength req) extra ∧
      ((withContentLength req).parser.headerList.filter HeaderLine.isNamedContentLength).map
          HeaderLine.value
        = if req.parser.method.any takesLength then [decimal req.outputBodySize] else [] := by
  have hnone : req.parser.headerList.filter HeaderLine.isNamedContentLength = [] := by
    rw [List.filter_eq_nil_iff]
    intro line hline
    simp [(h line hline).1]
  rw [withContentLength_eq h]
  split_ifs with hmethod
  · obtain ⟨line, hpair, hextends⟩ := extends_addHeader req (by decide +kernel : GoodName
      (bytesOf "Content-Length")) (goodValue_decimal hbody) (by decide)
    refine ⟨_, hextends, ?_⟩
    obtain ⟨hname, hvalue⟩ := Prod.mk.injEq .. ▸ hpair
    have hnamed : line.isNamedContentLength = true := by
      rw [HeaderLine.isNamedContentLength, hname]
      decide
    rw [hextends.lines, List.filter_append, hnone, List.nil_append,
      List.filter_cons_of_pos hnamed]
    simp [hvalue]
  · exact ⟨[], extends_refl req, by rw [hnone]; rfl⟩

theorem withConnection_spec (keepAliveTimeo : Int) (req : HttpMessage) :
    ∃ extra, Extends req (withConnection keepAliveTimeo req).2 extra ∧
      extra.filter HeaderLine.isNamedContentLength = [] := by
  unfold withConnection
  split
  · exact ⟨[], extends_refl req, rfl⟩
  · have hvalue : GoodValue (if (keepAliveTimeo != 0) = true then bytesOf "Keep-Alive"
        else bytesOf "close") := by
      split_ifs <;> decide +kernel
    obtain ⟨line, hpair, hextends⟩ := extends_addHeader req (by decide +kernel : GoodName
      (bytesOf "Connection")) hvalue (by decide)
    refine ⟨_, hextends, ?_⟩
    obtain ⟨hname, -⟩ := Prod.mk.injEq .. ▸ hpair
    rw [List.filter_cons_of_neg]
    · rfl
    · rw [HeaderLine.isNamedContentLength, hname]
      decide

theorem messageOut_spec (keepAliveTimeo : Int) (h : Unframed req.parser)
    (hbody : req.outputBodySize ≤ intMax) :
    ∃ extra, Extends req (messageOut keepAliveTimeo req).2 extra ∧
      ((messageOut keepAliveTimeo req).2.parser.headerList.filter
          HeaderLine.isNamedContentLength).map HeaderLine.value
        = if req.parser.method.any takesLength then [decimal req.outputBodySize] else [] := by
  obtain ⟨first, hfirst, hlength⟩ := withContentLength_spec h hbody
  obtain ⟨second, hsecond, hnone⟩ := withConnection_spec keepAliveTimeo (withContentLength req)
  have hout : (messageOut keepAliveTimeo req).2
      = (withConnection keepAliveTimeo (withContentLength req)).2 := rfl
  rw [hout]
  refine ⟨first ++ second, hfirst.trans hsecond, ?_⟩
  rw [hsecond.lines, List.filter_append, hnone, List.append_nil]
  exact hlength

end MessageOut

/-- A method or an address with blanks is cut elsewhere, but it is cut. -/
theorem splitStartLine_joinParts (parts : Bytes × Bytes × Bytes) :
    ∃ read, splitStartLine (joinParts parts) = some read := by
  have htwo : 2 ≤ (joinParts parts).count charSpace := by
    simp only [joinParts, List.count_append, List.count_singleton_self]
    omega
  obtain ⟨part1, rest, hline, hpart1⟩ := List.eq_append_cons_of_mem
    (List.count_pos_iff.mp (by omega : 0 < (joinParts parts).count charSpace))
  have hone : 0 < rest.count charSpace := by
    rw [hline, List.count_append, List.count_cons_self, List.count_eq_zero_of_not_mem hpart1] at htwo
    omega
  obtain ⟨part2, part3, hrest, hpart2⟩ := List.eq_append_cons_of_mem (List.count_pos_iff.mp hone)
  refine ⟨(part1, part2, part3), ?_⟩
  rw [← splitStartLine_of_parts hpart1 hpart2, hline, hrest]
  simp

/-- A request to which the user has given no length arrives as a whole when its method gets one from
`message_out`, or when it has no body. The start line and the user's headers are such that the parser
can read them, and `max` is an `int`. -/
theorem selfDelimiting_iff (memory : HttpParser) (keepAliveTimeo max : Int)
    (req after : HttpMessage) (method uri version : Bytes) (vectors : List Bytes)
    (hmax : max ≤ 2147483647)
    (hstart : StartsWith false (method, uri, version) req.parser)
    (hplain : charCr ∉ joinParts (method, uri, version) ∧
      charNul ∉ joinParts (method, uri, version))
    (hshort : (joinParts (method, uri, version)).length ≤ 8191)
    (hlines : ∀ line ∈ req.parser.headerList, GoodLine line)
    (hunframed : Unframed req.parser)
    (hbody : req.outputBodySize ≤ intMax)
    (hencode : (messageOut keepAliveTimeo req).2.encode max = .ok (vectors, after)) :
    SelfDelimiting memory vectors.flatten req.body ↔
      method = bytesOf "POST" ∨ strcaseEq method (bytesOf "PUT") = true ∨ req.body = [] := by
  obtain ⟨extra, hextends, hlength⟩ := messageOut_spec keepAliveTimeo hunframed hbody
  generalize (messageOut keepAliveTimeo req).2 = out at hencode hextends hlength
  have hgood : ∀ line ∈ out.parser.headerList, GoodLine line ∧
      isTransferEncoding line.name = false := by
    intro line hline
    rw [hextends.lines, List.mem_append] at hline
    rcases hline with hline | hline
    · exact ⟨hlines line hline, (hunframed line hline).2⟩
    · exact hextends.good line hline
  have hout : out.body = req.body := by rw [HttpMessage.body, hextends.body]; rfl
  have hsizes : req.body.length = req.outputBodySize := req.size_eq.symm
  obtain ⟨htext, hsize⟩ := text_of_encode hencode hmax (hextends.parts hstart) hplain.2 hshort
    (by rw [hextends.size]; exact hbody) fun line hline => (hgood line hline).1
  obtain ⟨read, hread⟩ := splitStartLine_joinParts (method, uri, version)
  have hmethod : req.parser.method.any takesLength = true ↔
      method = bytesOf "POST" ∨ strcaseEq method (bytesOf "PUT") = true := by
    have hnul : charNul ∉ method := by
      simp only [joinParts, List.mem_append, not_or] at hplain
      exact hplain.2.1.1.1.1
    rw [hstart.1, Option.any_some, takesLength, cString_of_not_mem hnul, Bool.or_eq_true,
      beq_iff_eq]
  -- the length that the receiver takes from the headers
  have hfrom : lengthFrom false out.parser.headerList
      = if req.parser.method.any takesLength then req.body.length else 0 := by
    split_ifs at hlength ⊢ with htakes
    · rw [lengthFrom, contentLengthAfter_of_named hlength (decimal_digit _),
        sizeOfInt_atoi_of_le (decimal_digit _) (by rw [numeralOf_decimal]; exact hbody),
        numeralOf_decimal, hsizes]
    · rw [lengthFrom, contentLengthAfter_of_none]
      · rfl
      · rw [filter_isContentLength, List.map_eq_nil_iff.mp hlength]
        rfl
  have hfits : lengthFrom false out.parser.headerList ≤ out.body.length := by
    rw [hfrom, hout]
    split_ifs
    · exact le_rfl
    · exact Nat.zero_le _
  obtain ⟨p, happend, hreceived⟩ := append_text memory ⟨hshort, hplain, hread⟩ (fun line hline =>
    ⟨(hgood line hline).1.2.1, (hgood line hline).1.2.2, (hgood line hline).2⟩) (by simp) htext hsize
    hfits
  have hwhole : SelfDelimiting memory vectors.flatten req.body ↔
      lengthFrom false out.parser.headerList = req.body.length := by
    constructor
    · intro h
      have hconsumed := h.consumed
      rw [happend, htext, List.length_append, hout] at hconsumed
      exact Nat.add_left_cancel hconsumed
    · intro h
      rw [h, hout, List.take_length] at hreceived
      refine ⟨by rw [happend], ?_, by rw [happend]; exact hreceived.body⟩
      rw [happend, h, htext, List.length_append, hout]
  rw [hwhole, hfrom, ← or_assoc, ← hmethod]
  split_ifs with htakes
  · simp [htakes]
  · rw [or_iff_right htakes, ← List.length_eq_zero_iff]
    exact eq_comm

/-- A request of the given method with one header and the body `x`. -/
def requestOf (method : String) : HttpMessage :=
  let msg := HttpMessage.init false zeroedParser
  let parser := httpParserSetVersion (bytesOf "HTTP/1.1") (httpParserSetUri (bytesOf "/a")
    (httpParserSetMethod (bytesOf method) msg.parser))
  { msg with parser := httpParserAddHeader (bytesOf "Host") (bytesOf "example") parser }
    |>.appendOutputBody (bytesOf "x")

theorem selfDelimiting_put :
    ∃ vectors after, (messageOut 60000 (requestOf "put")).2.encode 8192 = .ok (vectors, after) ∧
      SelfDelimiting zeroedParser vectors.flatten (bytesOf "x") := by
  refine ⟨_, _, rfl, ?_⟩
  exact (selfDelimiting_iff zeroedParser 60000 8192 (requestOf "put") _ (bytesOf "put")
    (bytesOf "/a") (bytesOf "HTTP/1.1") _ (by decide) (by decide +kernel) (by decide +kernel)
    (by decide +kernel) (by decide +kernel) (by decide +kernel) (by decide +kernel) rfl).mpr
    (by decide +kernel)

/-- The body of a `PATCH` is left over, as the start of another request. -/
theorem not_selfDelimiting_patch :
    ∃ vectors after, (messageOut 60000 (requestOf "PATCH")).2.encode 8192 = .ok (vectors, after) ∧
      (httpParserAppendMessage vectors.flatten (freshParser false false zeroedParser)).1 = 1 ∧
      (httpParserAppendMessage vectors.flatten (freshParser false false zeroedParser)).2.1 + 1
        = vectors.flatten.length ∧
      ¬ SelfDelimiting zeroedParser vectors.flatten (bytesOf "x") := by
  refine ⟨_, _, rfl, by decide +kernel, by decide +kernel, ?_⟩
  intro h
  exact absurd h.consumed (by decide +kernel)

end WorkflowModel.Client
