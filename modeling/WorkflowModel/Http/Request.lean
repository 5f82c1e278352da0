import WorkflowModel.Http.Parser

/-!
# Receiving a request

`HttpRequest::append` feeds the parser through `HttpMessage::append` and answers on the connection while the request
is still being read: it tells a client that expects it to go on, and it tells a client why its request is refused.
What `write` returns for an answer is an input.
-/

namespace WorkflowModel.Http

open WorkflowModel

/-- What `feedback` is called with. -/
inductive Feedback where
  | resp100
  | resp400
  | resp413
  | resp417
  deriving DecidableEq, Repr

def Feedback.text : Feedback → Bytes
  | .resp100 => bytesOf "HTTP/1.1 100 Continue\r\n\r\n"
  | .resp400 => bytesOf "HTTP/1.1 400 Bad Request\r\nContent-Length: 0\r\nConnection: close\r\n\r\n"
  | .resp413 => bytesOf "HTTP/1.1 413 Request Entity Too Large\r\nContent-Length: 0\r\nConnection: close\r\n\r\n"
  | .resp417 => bytesOf "HTTP/1.1 417 Expectation Failed\r\nContent-Length: 0\r\nConnection: close\r\n\r\n"

/-- What receiving uses of an `HttpRequest`, and what has been fed back. -/
structure HttpRequest where
  parser : HttpParser
  curSize : Nat
  sizeLimit : Nat
  feedbacks : List Feedback
  deriving DecidableEq

def HttpRequest.init (sizeLimit : Nat) (memory : HttpParser) : HttpRequest :=
  { parser := freshParser false false memory, curSize := 0, sizeLimit := sizeLimit, feedbacks := [] }

def HttpRequest.feedback (f : Feedback) (req : HttpRequest) : HttpRequest :=
  { req with feedbacks := req.feedbacks ++ [f] }

/-- The two values of `errno` that `HttpRequest::append` knows. -/
inductive AppendErrno where
  | badmsg
  | msgsize
  | other
  deriving DecidableEq, Repr

/-- `HttpMessage::append(buf, &size)`: the code, the new `size`, `errno` and the message. -/
def HttpRequest.appendMessage (buf : Bytes) (req : HttpRequest) : Int × Nat × AppendErrno × HttpRequest :=
  let (ret, n, parser) := httpParserAppendMessage buf req.parser
  if 0 ≤ ret then
    let curSize := sizeAdd req.curSize n
    if curSize > req.sizeLimit then (-1, n, .msgsize, { req with parser := parser, curSize := curSize })
    else (ret, n, .other, { req with parser := parser, curSize := curSize })
  else if ret = -2 then (-1, n, .badmsg, { req with parser := parser })
  else (ret, n, .other, { req with parser := parser })

/-- `HttpRequest::handle_expect_continue`, with the number of bytes that `write` takes of the answer. -/
def HttpRequest.handleExpectContinue (written : Int) (req : HttpRequest) : Int × HttpRequest :=
  let transLen := req.parser.transferLength
  if transLen ≠ sizeMax ∧ sizeAdd req.parser.headerOffset transLen > req.sizeLimit then
    (-1, req.feedback .resp417)
  else if written ≠ Feedback.resp100.text.length then
    (-1, req.feedback .resp100)
  else
    (0, req.feedback .resp100)

def HttpRequest.append (written : Int) (buf : Bytes) (req : HttpRequest) : Int × Nat × HttpRequest :=
  let (ret, n, errno, next) := req.appendMessage buf
  if ret = 0 then
    if next.parser.expectContinue = true ∧ next.parser.headerState = .headerComplete then
      let (ret, next) :=
        HttpRequest.handleExpectContinue written { next with parser := { next.parser with expectContinue := false } }
      (ret, n, next)
    else (0, n, next)
  else if ret < 0 then
    match errno with
    | .badmsg => (ret, n, next.feedback .resp400)
    | .msgsize => (ret, n, next.feedback .resp413)
    | .other => (ret, n, next)
  else (ret, n, next)

/-- The pieces of a request, until a call does not ask for more. -/
def feedRequest : List (Bytes × Int) → HttpRequest → Int × HttpRequest
  | [], req => (0, req)
  | (buf, written) :: pieces, req =>
      let (ret, _, next) := req.append written buf
      if ret = 0 then feedRequest pieces next else (ret, next)

end WorkflowModel.Http
