import WorkflowModel.Proof.HttpChunkText
import WorkflowModel.Proof.HttpTransfer
import WorkflowModel.Proof.ReadMessage

/-!
# Responses on a connection

A response that a session waits for frames what the peer answers: any number of interim responses, and then a
message whose body is as long as its headers say or comes in chunks. So the sessions of a connection get their
answers, whatever the reads are and whatever the other threads do between them.
-/

namespace WorkflowModel.Http

open WorkflowModel Resume Framing
open WorkflowModel.Kernel (pollerBufsize)

section Frames

variable {zeroBody : Bool} {memory : HttpParser} {text : Bytes} {Good : HttpParser → Prop} {resp : HttpResponse}

/-- What a response has still to come to of a text that ends its message. -/
def Remains (zeroBody : Bool) (memory : HttpParser) (text remaining : Bytes) (resp : HttpResponse) : Prop :=
  ∃ stream, stream ++ remaining = text ∧ remaining ≠ [] ∧ FedWith true zeroBody memory stream resp.parser
    ∧ resp.sizeLimit = sizeMax

theorem remains_fresh (hne : text ≠ []) (hparser : resp.parser = freshParser true zeroBody memory)
    (hlimit : resp.sizeLimit = sizeMax) : Remains zeroBody memory text text resp := by
  refine ⟨[], rfl, hne, ?_, hlimit⟩
  rw [hparser]
  exact fedWith_freshParser true zeroBody memory

/-- The response takes a whole piece, or the parser completes the message at the end of the text. -/
theorem Remains.cases {remaining piece more rest : Bytes} (h : Remains zeroBody memory text remaining resp)
    (hends : Ends true zeroBody memory text Good) (hsize : text.length + pollerBufsize < 2 ^ 63)
    (hmax : piece.length ≤ pollerBufsize) (halike : piece ++ more = remaining ++ rest) :
    (∃ next, resp.append piece = (0, piece.length, next) ∧ piece.length < remaining.length
        ∧ Remains zeroBody memory text (remaining.drop piece.length) next)
      ∨ ∃ q, httpParserAppendMessage piece resp.parser = (1, remaining.length, q) ∧ Good q
        ∧ remaining.length ≤ piece.length := by
  obtain ⟨stream, rfl, hne, hfed, hlimit⟩ := h
  have hpositive := List.length_pos_iff.mpr hne
  rw [List.length_append] at hsize
  by_cases hlong : remaining.length ≤ piece.length
  · obtain ⟨behind, rfl, -⟩ := exists_append_of_append_eq remaining rest halike hlong
    rw [List.length_append] at hmax
    have htext : (stream ++ remaining ++ behind).length < 2 ^ 63 := by
      simp only [List.length_append]
      omega
    obtain ⟨q, hq, hgood⟩ := hends.append_of_whole hfed htext (List.append_assoc _ _ _).symm
      (by rw [List.length_append]; exact Nat.le_add_right _ _)
    rw [List.length_append, Nat.add_sub_cancel_left] at hq
    exact .inr ⟨q, hq, hgood, hlong⟩
  · obtain ⟨behind, rfl, -⟩ := exists_append_of_append_eq piece more halike.symm (Nat.not_le.mp hlong).le
    have hbehind : behind ≠ [] := by
      rintro rfl
      simp at hlong
    have hcode := hends.append_of_part hfed (by rw [List.length_append]; omega) (List.append_assoc _ _ _) hbehind
    cases appended piece hfed.waiting.between hlimit with
    | interim next code thrown append parser limit => simp [hcode] at code
    | final next code kept append parser => simp [hcode] at code
    | bad next code append parser => simp [hcode] at code
    | more next code append parser limit =>
        rw [(append_more hfed.waiting.between hcode).1] at append
        have hnext := hfed.append hcode
        rw [← parser] at hnext
        refine .inl ⟨next, append, Nat.not_le.mp hlong, stream ++ piece, ?_, ?_, hnext, limit⟩
        · rw [List.drop_left, List.append_assoc]
        · rw [List.drop_left]
          exact hbehind

/-- A response frames a message that is not interim. -/
theorem frames_of_ends (hends : Ends true zeroBody memory text Good) (hsize : text.length + pollerBufsize < 2 ^ 63)
    (hfinal : ∀ q, Good q → isInterim q = false) (hparser : resp.parser = freshParser true zeroBody memory)
    (hlimit : resp.sizeLimit = sizeMax) :
    Frames HttpResponse.append pollerBufsize (0 < ·) (fun resp => Good resp.parser) text resp := by
  refine ⟨Remains zeroBody memory text, remains_fresh hends.nonempty hparser hlimit, ?_⟩
  intro remaining resp piece more rest hremains hpiece hmax halike
  have hpositive := List.length_pos_iff.mpr hpiece
  obtain ⟨next, happend, hlt, hnext⟩ | ⟨q, hq, hgood, hle⟩ := hremains.cases hends hsize hmax halike
  · exact ⟨0, _, next, happend, hpositive, le_rfl, .inl ⟨rfl, hlt, hnext⟩⟩
  · obtain ⟨stream, -, hne, hfed, hlimit⟩ := hremains
    have hcall := appended piece hfed.waiting.between hlimit
    rw [hq] at hcall
    cases hcall with
    | more next code append parser limit => cases code
    | bad next code append parser => cases code
    | interim next code thrown append parser limit =>
        rw [hfinal q hgood] at thrown
        cases thrown
    | final next code kept append parser =>
        refine ⟨1, _, next, append, List.length_pos_iff.mpr hne, hle, .inr ⟨by decide, rfl, ?_⟩⟩
        change Good next.parser
        rw [parser]
        exact hgood

def Afresh (resp : HttpResponse) : Prop :=
  (∃ memory, resp.parser = freshParser true false memory) ∧ resp.sizeLimit = sizeMax

theorem frames_of_interim (hends : Ends true zeroBody memory text Good)
    (hsize : text.length + pollerBufsize < 2 ^ 63) (hinterim : ∀ q, Good q → isInterim q = true)
    (hparser : resp.parser = freshParser true zeroBody memory) (hlimit : resp.sizeLimit = sizeMax) :
    Frames HttpResponse.append pollerBufsize (· = 0) Afresh text resp := by
  refine ⟨Remains zeroBody memory text, remains_fresh hends.nonempty hparser hlimit, ?_⟩
  intro remaining resp piece more rest hremains hpiece hmax halike
  have hpositive := List.length_pos_iff.mpr hpiece
  obtain ⟨next, happend, hlt, hnext⟩ | ⟨q, hq, hgood, hle⟩ := hremains.cases hends hsize hmax halike
  · exact ⟨0, _, next, happend, hpositive, le_rfl, .inl ⟨rfl, hlt, hnext⟩⟩
  · obtain ⟨stream, -, hne, hfed, hlimit⟩ := hremains
    have hcall := appended piece hfed.waiting.between hlimit
    rw [hq] at hcall
    cases hcall with
    | more next code append parser limit => cases code
    | bad next code append parser => cases code
    | final next code kept append parser =>
        rw [hinterim q hgood] at kept
        cases kept
    | interim next code thrown append parser limit =>
        exact ⟨0, _, next, append, List.length_pos_iff.mpr hne, hle, .inr ⟨rfl, rfl, ⟨q, parser⟩, limit⟩⟩

end Frames

def interimText (heads : List Head) : Bytes := heads.flatMap fun head => head.text ++ crlf

theorem ends_interim (memory : HttpParser) {head : Head} (h : head.parts.2.1.head? = some 49) :
    Ends true false memory (head.text ++ crlf) fun q => q.code = some head.parts.2.1 where
  nonempty := by simp [crlf]
  stops := by
    intro rest hsize
    have hmessage : [] ++ (head.text ++ crlf ++ rest) = head.text ++ (crlf ++ rest) := List.append_assoc _ _ _
    have hbodiless : hasNoBody head.parts.2.1 = true := by simp [hasNoBody, h]
    obtain ⟨next, happend, hcode⟩ := (midway_freshParser false memory).append_of_bodiless hmessage (.inr hbodiless) hsize
    rw [length_headEnd]
    exact ⟨next, happend, hcode⟩
  same := by
    intro p q hsame hcode
    have hmessage : q = _ := hsame.sameMessage
    rw [hmessage] at hcode
    exact hcode

theorem frames_of_interims {text : Bytes} {Done : HttpResponse → Prop} {heads : List Head}
    (hfinal : ∀ resp, Afresh resp → Frames HttpResponse.append pollerBufsize (0 < ·) Done text resp)
    (hheads : ∀ head ∈ heads, head.parts.2.1.head? = some 49) (hne : text ≠ [])
    (hsize : (interimText heads ++ text).length + pollerBufsize < 2 ^ 63) {resp : HttpResponse} (hresp : Afresh resp) :
    Frames HttpResponse.append pollerBufsize (0 < ·) Done (interimText heads ++ text) resp := by
  induction heads generalizing resp with
  | nil => exact hfinal resp hresp
  | cons head heads ih =>
      obtain ⟨hhead, hheads⟩ := List.forall_mem_cons.mp hheads
      have hsplit : interimText (head :: heads) ++ text = (head.text ++ crlf) ++ (interimText heads ++ text) := by
        simp only [interimText, List.flatMap_cons, List.append_assoc]
      rw [hsplit, List.length_append] at hsize
      rw [hsplit]
      obtain ⟨⟨memory, hparser⟩, hlimit⟩ := hresp
      have hinterim : ∀ q : HttpParser, q.code = some head.parts.2.1 → isInterim q = true :=
        fun q hcode => (isInterim_of_code hcode).mpr hhead
      have hfirst := frames_of_interim (ends_interim memory hhead) (by omega) hinterim hparser hlimit
      exact (hfirst.mono fun next hnext => ih hheads (by omega) hnext).append (by simp [hne])

/-- The body of an answer, and the two ways of saying where it ends. -/
inductive Payload where
  | whole (body : Bytes)
  | chunks (body : ChunkedText)
  deriving DecidableEq, Repr

def Payload.bytes : Payload → Bytes
  | .whole body => body
  | .chunks body => body.bytes

def Payload.Fits (headers : List (Bytes × Bytes)) : Payload → Prop
  | .whole body => (∀ header ∈ headers, isTransferEncoding header.1 = false) ∧ lengthAfter sizeMax headers = body.length
  | .chunks body => headers.any makesChunked = true ∧ body.Good

def Payload.ReadFrom (p : HttpParser) : Payload → Prop
  | .whole body => httpParserGetBody p = some (body, body.length)
  | .chunks body => decodeChunkedBody p = some body.data

structure Answer where
  interims : List Head
  content : Bytes
  parts : Bytes × Bytes × Bytes
  headers : List (Bytes × Bytes)
  payload : Payload

def Answer.text (a : Answer) : Bytes := headText a.content a.headers ++ a.payload.bytes

def Answer.bytes (a : Answer) : Bytes := interimText a.interims ++ a.text

structure Answer.Good (a : Answer) : Prop where
  interims : ∀ head ∈ a.interims, head.parts.2.1.head? = some 49
  start : GoodStartLine a.content a.parts
  status : hasNoBody a.parts.2.1 = false
  headers : ∀ header ∈ a.headers, GoodName header.1 ∧ GoodValue header.2
  payload : a.payload.Fits a.headers
  small : a.bytes.length + pollerBufsize < 2 ^ 63

structure Answer.ReadFrom (a : Answer) (p : HttpParser) : Prop where
  start : StartsWith true a.parts p
  headers : p.headerList.map HeaderLine.pair = a.headers
  payload : a.payload.ReadFrom p

section Answers

variable {a : Answer}

theorem exists_lines {headers : List (Bytes × Bytes)} (h : ∀ header ∈ headers, GoodName header.1 ∧ GoodValue header.2) :
    ∃ lines : List HeaderLine, lines.map HeaderLine.pair = headers := by
  induction headers with
  | nil => exact ⟨[], rfl⟩
  | cons header headers ih =>
      obtain ⟨⟨hname, hvalue⟩, hheaders⟩ := List.forall_mem_cons.mp h
      obtain ⟨lines, hlines⟩ := ih hheaders
      obtain ⟨line, -, hspells⟩ := spells_of_addHeader zeroedParser hname.length_lt hvalue.length_lt
      refine ⟨line :: lines, ?_⟩
      rw [List.map_cons, hlines, hspells.pair_eq]

theorem Answer.ReadFrom.of_same {p q : HttpParser} (hsame : Same p q) (h : a.ReadFrom q) : a.ReadFrom p := by
  have hmessage : q = _ := hsame.sameMessage
  obtain ⟨hstart, hheaders, hpayload⟩ := h
  rw [hmessage] at hstart hheaders hpayload
  refine ⟨hstart, hheaders, ?_⟩
  cases hkind : a.payload with
  | whole body =>
      rw [hkind] at hpayload
      exact hpayload
  | chunks body =>
      rw [hkind] at hpayload
      exact hpayload

theorem Answer.Good.isInterim (h : a.Good) {p : HttpParser} (hp : a.ReadFrom p) : isInterim p = false := by
  have hcode : p.code = some a.parts.2.1 := hp.start.2.2.1
  have hstatus := h.status
  rw [Http.isInterim, hcode, Option.any_some]
  unfold hasNoBody at hstatus
  simp only [Bool.or_eq_false_iff] at hstatus
  exact hstatus.1.1

theorem Answer.Good.ends (h : a.Good) (memory : HttpParser) : Ends true false memory a.text a.ReadFrom where
  nonempty := headText_ne_nil _ _ _
  same := fun _ _ => Answer.ReadFrom.of_same
  stops := by
    intro rest hsize
    have hfits := h.payload
    cases hkind : a.payload with
    | chunks body =>
        rw [hkind] at hfits
        have htext : a.text = headText a.content a.headers ++ body.bytes := by rw [Answer.text, hkind]; rfl
        have hends := ends_chunkedText true memory h.start h.headers hfits.1 (fun _ => h.status) hfits.2
        rw [htext] at hsize ⊢
        obtain ⟨q, hq, hread⟩ := hends.stops rest hsize
        refine ⟨q, hq, hread.start, hread.headers, ?_⟩
        rw [hkind]
        exact hread.decode
    | whole body =>
        rw [hkind] at hfits
        obtain ⟨lines, hlines⟩ := exists_lines h.headers
        have htext : a.text = headText a.content (lines.map HeaderLine.pair) ++ body := by
          rw [Answer.text, hkind, hlines]
          rfl
        have hgood : ∀ line ∈ lines, GoodName line.name ∧ GoodValue line.value
            ∧ isTransferEncoding line.name = false := by
          intro line hline
          have hmem : line.pair ∈ a.headers := hlines ▸ List.mem_map_of_mem hline
          exact ⟨(h.headers _ hmem).1, (h.headers _ hmem).2, hfits.1 _ hmem⟩
        have hlength : lengthFrom true lines = body.length := by
          rw [lengthFrom, contentLengthAfter_eq, hlines]
          exact hfits.2
        have hends := ends_text memory h.start hgood (fun _ => h.status) hlength
        rw [htext] at hsize ⊢
        obtain ⟨q, hq, hread⟩ := hends.stops rest hsize
        refine ⟨q, hq, hread.start, hread.headers.trans hlines, ?_⟩
        rw [hkind]
        exact hread.body

theorem Answer.text_ne_nil (a : Answer) : a.text ≠ [] := headText_ne_nil _ _ _

theorem Answer.Good.frames (h : a.Good) {resp : HttpResponse} (hresp : Afresh resp) :
    Frames HttpResponse.append pollerBufsize (0 < ·) (fun resp => a.ReadFrom resp.parser) a.bytes resp := by
  have hsize := h.small
  refine frames_of_interims (fun resp hresp => ?_) h.interims a.text_ne_nil hsize hresp
  obtain ⟨⟨memory, hparser⟩, hlimit⟩ := hresp
  rw [Answer.bytes, List.length_append] at hsize
  exact frames_of_ends (h.ends memory) (by omega) (fun _ => h.isInterim) hparser hlimit

end Answers

section Run

open WorkflowModel.Kernel.ReadMessage

def Answer.reply (a : Answer) : Reply HttpResponse :=
  { text := a.bytes, Done := fun resp => a.ReadFrom resp.parser }

theorem texts_reply (answers : List Answer) : texts (answers.map Answer.reply) = answers.flatMap Answer.bytes := by
  rw [texts, List.flatMap_map]
  rfl

/-- On a connection the answers of the peer reach their sessions: the `i`-th message that is handed over is the
answer to the `i`-th request, an answer that has come as a whole is handed over when its bytes are read, and no
answer is refused. -/
theorem answers_of_run {inputs : List (Input HttpResponse)} {c : Conn HttpResponse} {answers : List Answer}
    {more rest : Bytes} (hgood : ∀ a ∈ answers, a.Good)
    (h : (connecting HttpResponse).run HttpResponse.append inputs = some c)
    (hsessions : ∀ resp, some resp ∈ c.sessions → ∃ memory, resp = HttpResponse.init false memory)
    (hwire : c.received ++ more = answers.flatMap Answer.bytes ++ rest) :
    (∀ (i j : Nat) (resp : HttpResponse) (a : Answer), c.handed[i]? = some (j, resp) → answers[i]? = some a →
        j = i ∧ a.ReadFrom resp.parser)
      ∧ (c.ended = none → c.buffer = [] → ∀ k ≤ answers.length,
          ((answers.take k).flatMap Answer.bytes).length ≤ c.received.length → k ≤ c.handed.length)
      ∧ (c.handed.length < answers.length → ∀ errno, c.ended ≠ some (.refused errno)) := by
  have hne : ∀ r ∈ answers.map Answer.reply, r.text ≠ [] := by
    intro r hr
    obtain ⟨a, -, rfl⟩ := List.mem_map.mp hr
    exact List.append_ne_nil_of_right_ne_nil _ a.text_ne_nil
  have hframes : c.FramesReplies HttpResponse.append (answers.map Answer.reply) := by
    intro i resp r hresp hr
    obtain ⟨a, ha, rfl⟩ := List.mem_map.mp (List.mem_of_getElem? hr)
    obtain ⟨memory, rfl⟩ := hsessions resp (List.mem_of_getElem? hresp)
    exact (hgood a ha).frames ⟨⟨memory, rfl⟩, rfl⟩
  have hreceives : c.Receives (answers.map Answer.reply) := ⟨more, rest, by rw [texts_reply]; exact hwire⟩
  obtain ⟨hhanded, hwhole, haccepted⟩ := replies_of_run hne h hframes hreceives
  refine ⟨fun i j resp a hresp ha => ?_, fun hended hbuffer k hk hle => ?_, ?_⟩
  · exact hhanded i (j, resp) a.reply hresp (by rw [List.getElem?_map, ha]; rfl)
  · refine hwhole hended hbuffer k (by rw [List.length_map]; exact hk) ?_
    rw [← List.map_take, texts_reply]
    exact hle
  · rw [List.length_map] at haccepted
    exact haccepted

theorem goodStartLine_continue :
    GoodStartLine (bytesOf "HTTP/1.1 100 Continue") (bytesOf "HTTP/1.1", bytesOf "100", bytesOf "Continue") :=
  ⟨by decide +kernel, by decide +kernel, by decide +kernel⟩

/-- An interim message and a body with a length for the first request, a chunked one for the second. -/
def keptAnswers : List Answer :=
  [{ interims := [⟨0, bytesOf "HTTP/1.1 100 Continue", (bytesOf "HTTP/1.1", bytesOf "100", bytesOf "Continue"), [],
        goodStartLine_continue⟩]
     content := bytesOf "HTTP/1.1 200 OK"
     parts := (bytesOf "HTTP/1.1", bytesOf "200", bytesOf "OK")
     headers := [(bytesOf "Content-Length", bytesOf "5")]
     payload := .whole (bytesOf "hello") },
   { interims := []
     content := bytesOf "HTTP/1.1 404 Not Found"
     parts := (bytesOf "HTTP/1.1", bytesOf "404", bytesOf "Not Found")
     headers := [(bytesOf "Transfer-Encoding", bytesOf "chunked")]
     payload := .chunks tracedBody }]

theorem good_keptAnswers : ∀ a ∈ keptAnswers, a.Good := by
  intro a ha
  simp only [keptAnswers, List.mem_cons, List.not_mem_nil, or_false] at ha
  obtain rfl | rfl := ha
  · exact ⟨by decide +kernel, ⟨by decide +kernel, by decide +kernel, by decide +kernel⟩, by decide +kernel,
      by decide +kernel, ⟨by decide +kernel, by decide +kernel⟩, by decide +kernel⟩
  · exact ⟨by decide +kernel, ⟨by decide +kernel, by decide +kernel, by decide +kernel⟩, by decide +kernel,
      by decide +kernel, ⟨by decide +kernel, good_tracedBody⟩, by decide +kernel⟩

/-- The reads cut through the interim message, both bodies and the last line end. -/
def keptInputs : List (Input HttpResponse) :=
  let round := Input.appendMessage { allocated := true, errno := 0, timeout := 60000 }
  [.send (some (HttpResponse.init false zeroedParser)), .read (bytesOf "HTTP/1.1 100 Con"), round,
   .read (bytesOf "tinue\r\n\r\nHTTP/1.1 200 OK\r\nContent-Length: 5\r\n\r\nhel"), round, round,
   .read (bytesOf "lo"), round, .handle, .send (some (HttpResponse.init false zeroedParser)),
   .read (bytesOf "HTTP/1.1 404 Not Found\r\nTransfer-Encoding: chunked\r\n\r\n3;a=b\r\nxyz\r\nA\r\n0123"), round,
   .read (bytesOf "456789\r\n00\r\nExpires: 0\r\n\r"), round, .read (bytesOf "\n"), round]

theorem answers_of_run_keptInputs :
    ∃ c, (connecting HttpResponse).run HttpResponse.append keptInputs = some c ∧ c.handed.length = 2
      ∧ ∀ (i j : Nat) (resp : HttpResponse) (a : Answer), c.handed[i]? = some (j, resp) → keptAnswers[i]? = some a →
          j = i ∧ a.ReadFrom resp.parser := by
  have hrun : ∃ c, (connecting HttpResponse).run HttpResponse.append keptInputs = some c ∧ c.handed.length = 2
      ∧ c.sessions = [some (HttpResponse.init false zeroedParser), some (HttpResponse.init false zeroedParser)]
      ∧ c.received = keptAnswers.flatMap Answer.bytes := by
    refine ⟨((connecting HttpResponse).run HttpResponse.append keptInputs).getD (connecting HttpResponse), ?_, ?_⟩
    · decide +kernel
    · decide +kernel
  obtain ⟨c, hc, htwo, hsessions, hreceived⟩ := hrun
  have hwire : c.received ++ [] = keptAnswers.flatMap Answer.bytes ++ [] := by rw [hreceived]
  refine ⟨c, hc, htwo, (answers_of_run good_keptAnswers hc (fun resp hresp => ?_) hwire).1⟩
  rw [hsessions] at hresp
  exact ⟨zeroedParser, by simpa using hresp⟩

end Run

end WorkflowModel.Http
