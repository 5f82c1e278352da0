import WorkflowModel.Proof.HttpPieces
import WorkflowModel.Proof.HttpRoundTrip
import WorkflowModel.Proof.SendMessage

/-!
# A message from one side to the other

A message is encoded into vectors, the vectors are written in as many calls of `writev` as it takes, and the bytes
come to a parser in other pieces than they were written in. The parser ends with the message.
-/

namespace WorkflowModel.Http

open WorkflowModel Resume
open WorkflowModel.Kernel.Communicator (WritevResult encodeIovMax sendMessage)
open WorkflowModel.Kernel.SendMessage

section Text

variable {isResp : Bool} {content body : Bytes} {parts : Bytes × Bytes × Bytes} {lines : List HeaderLine}

theorem Received.of_same {p q : HttpParser} (hsame : Same p q) (h : Received isResp parts lines body q) :
    Received isResp parts lines body p := by
  have hmessage : q = _ := hsame.sameMessage
  obtain ⟨hstart, hheaders, hbody⟩ := h
  rw [hmessage] at hstart hheaders hbody
  exact ⟨hstart, hheaders, hbody⟩

theorem ends_text (memory : HttpParser) (hcontent : GoodStartLine content parts)
    (hlines : ∀ line ∈ lines, GoodName line.name ∧ GoodValue line.value ∧ isTransferEncoding line.name = false)
    (hstatus : isResp = true → hasNoBody parts.2.1 = false) (hlength : lengthFrom isResp lines = body.length) :
    Ends isResp false memory (headText content (lines.map HeaderLine.pair) ++ body)
      (Received isResp parts lines body) where
  nonempty := headText_ne_nil content _ body
  same := fun _ _ => Received.of_same
  stops := by
    intro rest hsize
    have hfits : lengthFrom isResp lines ≤ (body ++ rest).length := by
      rw [hlength, List.length_append]
      exact Nat.le_add_right _ _
    obtain ⟨q, hq, hread⟩ := append_text memory hcontent hlines hstatus (List.append_assoc _ _ rest) hsize hfits
    rw [hlength, List.take_left] at hread
    rw [hlength, ← List.length_append] at hq
    exact ⟨q, hq, hread⟩

end Text

/-- A message that can be read back: the parts of its start line, its headers and the length that they give. -/
structure Sendable (isResp : Bool) (parts : Bytes × Bytes × Bytes) (msg : HttpMessage) : Prop where
  start : StartsWith isResp parts msg.parser
  first : charSpace ∉ parts.1 ∧ charCr ∉ parts.1 ∧ charNul ∉ parts.1
  second : charSpace ∉ parts.2.1 ∧ charCr ∉ parts.2.1 ∧ charNul ∉ parts.2.1
  third : charCr ∉ parts.2.2 ∧ charNul ∉ parts.2.2
  short : (joinParts parts).length ≤ 8191
  status : isResp = true → hasNoBody parts.2.1 = false
  lines : ∀ line ∈ msg.parser.headerList, GoodLine line
  encoding : ∀ line ∈ msg.parser.headerList, isTransferEncoding line.name = false
  length : (msg.parser.headerList.filter HeaderLine.isNamedContentLength).map HeaderLine.value
    = [decimal msg.outputBodySize]
  body : msg.outputBodySize ≤ intMax

section Message

variable {isResp : Bool} {parts : Bytes × Bytes × Bytes} {msg after : HttpMessage} {vectors : List Bytes}

theorem Sendable.content (h : Sendable isResp parts msg) : GoodStartLine (joinParts parts) parts := by
  obtain ⟨part1, part2, part3⟩ := parts
  obtain ⟨hspace, hcr, hnul⟩ := h.first
  obtain ⟨hspace', hcr', hnul'⟩ := h.second
  obtain ⟨hcr'', hnul''⟩ := h.third
  exact ⟨h.short, ⟨not_mem_joinParts (by decide) hcr hcr' hcr'', not_mem_joinParts (by decide) hnul hnul' hnul''⟩,
    splitStartLine_of_parts hspace hspace'⟩

theorem Sendable.lengthFrom_eq (h : Sendable isResp parts msg) :
    lengthFrom isResp msg.parser.headerList = msg.body.length := by
  have hdigit := decimal_digit msg.outputBodySize
  calc lengthFrom isResp msg.parser.headerList
      = sizeOfInt (atoi (decimal msg.outputBodySize)) := contentLengthAfter_of_named h.length hdigit
    _ = numeralOf (decimal msg.outputBodySize) :=
        sizeOfInt_atoi_of_le hdigit (by rw [numeralOf_decimal]; exact h.body)
    _ = msg.body.length := by rw [numeralOf_decimal, msg.size_eq]; rfl

theorem Sendable.ends (h : Sendable isResp parts msg) (memory : HttpParser) {max : Int} (hmax : max ≤ 2147483647)
    (hencode : msg.encode max = .ok (vectors, after)) :
    Ends isResp false memory vectors.flatten (Received isResp parts msg.parser.headerList msg.body) := by
  obtain ⟨htext, -⟩ := text_of_encode hencode hmax h.start h.content.plain.2 h.short h.body h.lines
  rw [htext]
  exact ends_text memory h.content
    (fun line hline => ⟨(h.lines line hline).2.1, (h.lines line hline).2.2, h.encoding line hline⟩) h.status
    h.lengthFrom_eq

end Message

/-- A message that can be read back, and that `send_message` has encoded and written as a whole in any number of
calls of `writev`, is read from any fragments of what was written, with anything behind it: the parser ends at its
last byte with the same start line, headers and body. -/
theorem received_of_sent (isResp : Bool) (memory : HttpParser) {parts : Bytes × Bytes × Bytes}
    {msg after : HttpMessage} {vectors fragments : List Bytes} {results : List WritevResult} {errno : Int} {sent : Sent}
    {rest : Bytes} (hmsg : Sendable isResp parts msg) (hencode : msg.encode encodeIovMax = .ok (vectors, after))
    (hobeys : Obeys results vectors) (hloop : sendMessageSync results vectors = some sent)
    (hsend : sendMessage (.encoded (vectors.map List.length) results errno) = 0)
    (hfragments : fragments.flatten = sent.accepted ++ rest) (hsize : fragments.flatten.length < 2 ^ 63) :
    (feed fragments (freshParser isResp false memory)).code = 1
      ∧ (feed fragments (freshParser isResp false memory)).consumed = sent.accepted.length
      ∧ Received isResp parts msg.parser.headerList msg.body
          (feed fragments (freshParser isResp false memory)).parser := by
  have hends := hmsg.ends memory (by decide) hencode
  have hne : vectors ≠ [] := by
    rintro rfl
    exact hends.nonempty rfl
  have haccepted := accepted_of_zero hobeys hloop (ret_eq_zero_of_sendMessage hne hloop hsend)
  rw [haccepted] at hfragments ⊢
  exact hends.feed hfragments hsize

theorem sendable_answerMessage :
    Sendable true (bytesOf "HTTP/1.1", bytesOf "404", bytesOf "Not Found") answerMessage := by
  constructor
  all_goals decide +kernel

/-- Twelve vectors in one call, read in three pieces with the beginning of another message. -/
theorem received_of_sent_answerMessage :
    ∃ vectors after sent, answerMessage.encode encodeIovMax = .ok (vectors, after)
      ∧ sendMessageSync [.wrote 55] vectors = some sent ∧ vectors.length = 12
      ∧ Received true (bytesOf "HTTP/1.1", bytesOf "404", bytesOf "Not Found") answerMessage.parser.headerList
          answerMessage.body (feed [bytesOf "HTTP/1.1 404 Not Fou", bytesOf "nd\r\nContent-Length: 5\r\nX: \r\n\r",
            bytesOf "\nhelloHTTP"] (freshParser true false zeroedParser)).parser := by
  have hrun : ∃ vectors after sent, answerMessage.encode encodeIovMax = .ok (vectors, after)
      ∧ sendMessageSync [.wrote 55] vectors = some sent ∧ vectors.length = 12
      ∧ sendMessage (.encoded (vectors.map List.length) [.wrote 55] 0) = 0
      ∧ 55 ≤ (offered vectors).flatten.length
      ∧ [bytesOf "HTTP/1.1 404 Not Fou", bytesOf "nd\r\nContent-Length: 5\r\nX: \r\n\r",
          bytesOf "\nhelloHTTP"].flatten = sent.accepted ++ bytesOf "HTTP" :=
    ⟨_, _, _, rfl, rfl, by decide +kernel⟩
  obtain ⟨vectors, after, sent, hencode, hloop, hcount, hsend, hoffered, hfragments⟩ := hrun
  have hobeys : Obeys [.wrote 55] vectors := ⟨hoffered, trivial⟩
  exact ⟨vectors, after, sent, hencode, hloop, hcount, (received_of_sent true zeroedParser sendable_answerMessage
    hencode hobeys hloop hsend hfragments (by decide +kernel)).2.2⟩

end WorkflowModel.Http
