import WorkflowModel.Http.Parser
import Mathlib.Algebra.GroupWithZero.Nat

/-!
# Receiving a response

`HttpResponse::append` feeds the parser through `HttpMessage::append`, which keeps count of the bytes
and knows one error code only. When an interim response, one whose status code starts with `1`, is
complete, it is thrown away and the parser is initialised for the next one. The poller calls `append`
again for the bytes of a read that are left.
-/

namespace WorkflowModel.Http

open WorkflowModel

/-- What receiving uses of an `HttpResponse`. -/
structure HttpResponse where
  parser : HttpParser
  curSize : Nat
  sizeLimit : Nat
  deriving DecidableEq

/-- `HttpResponse::HttpResponse` and, for the answer to a HEAD request, `parse_zero_body`. -/
def HttpResponse.init (zeroBody : Bool) (memory : HttpParser) : HttpResponse :=
  { parser := freshParser true zeroBody memory, curSize := 0, sizeLimit := sizeMax }

/-- `HttpMessage::append(buf, &size)`: the code, the new `size` and the message. -/
def HttpResponse.appendMessage (buf : Bytes) (resp : HttpResponse) : Int × Nat × HttpResponse :=
  let (ret, n, parser) := httpParserAppendMessage buf resp.parser
  if 0 ≤ ret then
    let curSize := sizeAdd resp.curSize n
    (if curSize > resp.sizeLimit then -1 else ret, n,
      { resp with parser := parser, curSize := curSize })
  else
    (if ret = -2 then -1 else ret, n, { resp with parser := parser })

/-- `*http_parser_get_code(parser) == '1'`, for a parser that has a code. -/
def isInterim (parser : HttpParser) : Bool := parser.code.any fun code => code.head? == some 49

/-- `HttpResponse::append`. The parser of an interim response is initialised where it lies. -/
def HttpResponse.append (buf : Bytes) (resp : HttpResponse) : Int × Nat × HttpResponse :=
  let (ret, n, next) := resp.appendMessage buf
  if 0 < ret ∧ isInterim next.parser then
    (0, n, { next with parser := httpParserInit true next.parser })
  else
    (ret, n, next)

/-- What the poller has seen when a response has ended or the bytes have: the last code, the sum of
the bytes that were used and the response. -/
structure Receipt where
  code : Int
  consumed : Nat
  response : HttpResponse
  deriving DecidableEq

/-- The two loops of `__poller_handle_read`, up to the end of one message. In front of the reads to
come the list has the bytes of the current read that are left, which are passed to `append` again
while there are any. -/
def pollerLoop : Nat → List Bytes → HttpResponse → Receipt
  | 0, _, resp => { code := 0, consumed := 0, response := resp }
  | _, [], resp => { code := 0, consumed := 0, response := resp }
  | fuel + 1, buf :: reads, resp =>
      let (ret, n, next) := resp.append buf
      if ret ≠ 0 then
        { code := ret, consumed := n, response := next }
      else
        let receipt :=
          if n < buf.length then pollerLoop fuel (buf.drop n :: reads) next
          else pollerLoop fuel reads next
        { receipt with consumed := n + receipt.consumed }

/-- Every call uses a byte or finishes a read. -/
def readsSize (reads : List Bytes) : Nat := (reads.map fun buf => buf.length + 1).sum

def receive (reads : List Bytes) (resp : HttpResponse) : Receipt :=
  pollerLoop (readsSize reads) reads resp

end WorkflowModel.Http
