import WorkflowModel.CString
import WorkflowModel.Lib.Resume
import Mathlib.Data.Vector.Basic

/-!
# The HTTP parser

`http_parser.c` keeps the whole message in one buffer and scans it with five sub-parsers: start line,
header name, header value, chunk line and trailer line. Each reads the buffer from a saved offset and
returns 1 when it has moved the offset, 0 when it needs more bytes and a negative code when the message
is malformed. `http_parser_append_message` copies one fragment into the buffer and runs them.

A pointer into the buffer is the list of the bytes from it to the end of the buffer. Allocation
succeeds, so the code -1 that stands for a failed `malloc` does not appear.
-/

namespace WorkflowModel.Http

open WorkflowModel

def httpStartLineMax : Nat := 8192
def httpHeaderValueMax : Nat := 8192
def httpChunkLineMax : Nat := 1024
def httpTrailerLineMax : Nat := 8192
def httpMsgbufInitSize : Nat := 2048
def httpHeaderNameMax : Nat := 64

/-- `CHUNK_SIZE_MAX`, an unsigned constant. -/
def chunkSizeMax : Nat := 2 * 1024 * 1024 * 1024 - httpChunkLineMax - 4

inductive HeaderState where
  | startLine
  | headerName
  | headerValue
  | headerComplete
  deriving DecidableEq, Repr

inductive ChunkState where
  | chunkData
  | trailerPart
  | chunkComplete
  deriving DecidableEq, Repr

/-- `struct __header_line`: the text `name: value CRLF` with the two lengths. -/
structure HeaderLine where
  nameLen : Int
  valueLen : Int
  buf : Bytes
  deriving DecidableEq, Repr

def HeaderLine.name (line : HeaderLine) : Bytes := line.buf.take line.nameLen.toNat

def HeaderLine.value (line : HeaderLine) : Bytes :=
  (line.buf.drop (line.nameLen.toNat + 2)).take line.valueLen.toNat

/-- `http_parser_t`. The bytes `msgbuf[0 .. msgsize)` are the list `msgbuf`. -/
structure HttpParser where
  headerState : HeaderState
  chunkState : ChunkState
  headerOffset : Nat
  chunkOffset : Nat
  contentLength : Nat
  transferLength : Nat
  version : Option Bytes
  method : Option Bytes
  uri : Option Bytes
  code : Option Bytes
  phrase : Option Bytes
  headerList : List HeaderLine
  namebuf : Vector UInt8 httpHeaderNameMax
  msgbuf : Bytes
  bufsize : Nat
  expectContinue : Bool
  keepAlive : Bool
  chunked : Bool
  complete : Bool
  isResp : Bool
  deriving DecidableEq

def HttpParser.msgsize (parser : HttpParser) : Nat := parser.msgbuf.length

/-- `http_parser_init` on memory that may hold anything: `chunk_state`, `chunk_offset` and `namebuf`
are left as they are. -/
def httpParserInit (isResp : Bool) (parser : HttpParser) : HttpParser :=
  { parser with
    headerState := .startLine
    headerOffset := 0
    transferLength := sizeMax
    contentLength := if isResp then sizeMax else 0
    version := none
    method := none
    uri := none
    code := none
    phrase := none
    headerList := []
    msgbuf := []
    bufsize := 0
    expectContinue := false
    keepAlive := true
    chunked := false
    complete := false
    isResp := isResp }

def parseZeroBody (parser : HttpParser) : HttpParser := { parser with transferLength := 0 }

def httpParserAddHeader (name value : Bytes) (parser : HttpParser) : HttpParser :=
  { parser with
    headerList := parser.headerList ++
      [{ nameLen := intOfLong name.length
         valueLen := intOfLong value.length
         buf := name ++ [charColon, charSpace] ++ value ++ [charCr, charLf] }] }

/-- `strcmp(version, "HTTP/1.0") == 0 || strncmp(version, "HTTP/0", 6) == 0`. -/
def closesByDefault (version : Bytes) : Bool :=
  version == bytesOf "HTTP/1.0" || version.take 6 == bytesOf "HTTP/0"

def matchRequestLine (method uri version : Bytes) (parser : HttpParser) : HttpParser :=
  { parser with
    keepAlive := if closesByDefault version then false else parser.keepAlive
    method := some method
    uri := some uri
    version := some version }

/-- `*code == '1' || strcmp(code, "204") == 0 || strcmp(code, "304") == 0`. -/
def hasNoBody (code : Bytes) : Bool :=
  code.head? == some 49 || code == bytesOf "204" || code == bytesOf "304"

def matchStatusLine (version code phrase : Bytes) (parser : HttpParser) : HttpParser :=
  { parser with
    keepAlive := if closesByDefault version then false else parser.keepAlive
    transferLength := if hasNoBody code then 0 else parser.transferLength
    version := some version
    code := some code
    phrase := some phrase }

def matchExpect (name value : Bytes) (parser : HttpParser) : HttpParser :=
  if strcaseEq name (bytesOf "Expect") && strcaseEq value (bytesOf "100-continue") then
    { parser with expectContinue := true }
  else
    parser

def matchConnection (name value : Bytes) (parser : HttpParser) : HttpParser :=
  if strcaseEq name (bytesOf "Connection") then
    if strcaseEq value (bytesOf "Keep-Alive") then
      { parser with keepAlive := true }
    else if strcaseEq value (bytesOf "close") then
      { parser with keepAlive := false }
    else
      parser
  else
    parser

def matchContentLength (name value : Bytes) (parser : HttpParser) : HttpParser :=
  if strcaseEq name (bytesOf "Content-Length") && (value.head?.any isDigit) then
    { parser with contentLength := sizeOfInt (atoi value) }
  else
    parser

def matchTransferEncoding (name value : Bytes) (parser : HttpParser) : HttpParser :=
  if strcaseEq name (bytesOf "Transfer-Encoding") &&
      (value.length != 8 || !strcaseEq value (bytesOf "identity")) then
    { parser with chunked := true }
  else
    parser

/-- `__match_message_header`. The `case 6` of the source has no `break`, so it runs into `case 10`. -/
def matchMessageHeader (name value : Bytes) (parser : HttpParser) : HttpParser :=
  let parser :=
    match name.length with
    | 6 => matchConnection name value (matchExpect name value parser)
    | 10 => matchConnection name value parser
    | 14 => matchContentLength name value parser
    | 17 => matchTransferEncoding name value parser
    | _ => parser
  httpParserAddHeader name value parser

/-! ### The line scanner

Start line, chunk line and trailer line are found by the same loop: copy bytes up to a carriage
return, which has to be followed by a line feed. They differ in the longest line and in whether a NUL
is refused. -/

inductive LineScan where
  | more
  | bad
  | line (content : Bytes)
  deriving DecidableEq, Repr

/-- The loop over `i`, with the bytes before `i` in `content` and the bytes from `i` on in the list.
Reaching `i == max` is an error, reaching the end of the bytes asks for more. -/
def scanLine (max : Nat) (refuseNul : Bool) (content : Bytes) : Bytes → LineScan
  | [] => if content.length = max then .bad else .more
  | c :: rest =>
      if content.length = max then
        .bad
      else if c = charCr then
        match rest with
        | [] => .more
        | d :: _ => if d ≠ charLf then .bad else .line content
      else if refuseNul && c == charNul then
        .bad
      else
        scanLine max refuseNul (content ++ [c]) rest

def startsWithCrlf : Bytes → Bool
  | c :: d :: _ => c == charCr && d == charLf
  | _ => false

/-- The two `strchr(_, ' ')` cuts of a start line. -/
def splitStartLine (content : Bytes) : Option (Bytes × Bytes × Bytes) :=
  match content.span (· != charSpace) with
  | (p1, _ :: rest) =>
      match rest.span (· != charSpace) with
      | (p2, _ :: p3) => some (p1, p2, p3)
      | (_, []) => none
  | (_, []) => none

def parseStartLine (ptr : Bytes) (parser : HttpParser) : Int × HttpParser :=
  if startsWithCrlf ptr then
    (1, { parser with headerOffset := parser.headerOffset + 2 })
  else
    match scanLine httpStartLineMax true [] ptr with
    | .more => (0, parser)
    | .bad => (-2, parser)
    | .line content =>
        match splitStartLine content with
        | none => (-2, parser)
        | some (p1, p2, p3) =>
            let parser :=
              if parser.isResp then matchStatusLine p1 p2 p3 parser
              else matchRequestLine p1 p2 p3 parser
            (1, { parser with
              headerOffset := parser.headerOffset + (content.length + 2)
              headerState := .headerName })

/-- The loop of `__parse_header_name`: the code, the name buffer and the index at which it ended. -/
def nameLoop (namebuf : Vector UInt8 httpHeaderNameMax) (i : Nat) :
    Bytes → Int × Vector UInt8 httpHeaderNameMax × Nat
  | [] => (if i = httpHeaderNameMax then -2 else 0, namebuf, i)
  | c :: rest =>
      if i = httpHeaderNameMax then
        (-2, namebuf, i)
      else if c = charColon then
        (1, namebuf.setIfInBounds i charNul, i)
      else if c = charNul then
        (-2, namebuf, i)
      else
        nameLoop (namebuf.setIfInBounds i c) (i + 1) rest

def parseHeaderName (ptr : Bytes) (parser : HttpParser) : Int × HttpParser :=
  if startsWithCrlf ptr then
    (1, { parser with
      headerOffset := parser.headerOffset + 2
      headerState := .headerComplete })
  else
    match nameLoop parser.namebuf 0 ptr with
    | (1, namebuf, i) =>
        (1, { parser with
          namebuf := namebuf
          headerOffset := parser.headerOffset + (i + 1)
          headerState := .headerValue })
    | (ret, namebuf, _) => (ret, { parser with namebuf := namebuf })

def isBlank (c : UInt8) : Bool := c == charSpace || c == charTab

/-- The copying loop of `__parse_header_value`: one byte is read ahead before the copied byte is
looked at. On success the list starts with the byte after the carriage return. -/
def copyValue (value : Bytes) : Bytes → LineScan × Bytes
  | [] => (.more, [])
  | c :: rest =>
      if value.length = httpHeaderValueMax then
        (.bad, [])
      else if rest = [] then
        (.more, [])
      else if c = charCr then
        (.line value, rest)
      else if c = charNul then
        (.bad, [])
      else
        copyValue (value ++ [c]) rest

/-- One round of the outer loop of `__parse_header_value`. -/
inductive ValueRound where
  | more
  | bad
  | value (content rest : Bytes)
  | folded (content rest : Bytes)
  deriving DecidableEq, Repr

def trimRight (value : Bytes) : Bytes := (value.reverse.dropWhile isBlank).reverse

/-- The test for a continuation line is written as in the source, `*ptr != ' ' || *ptr != '\t'`. -/
def valueRound (value ptr : Bytes) : ValueRound :=
  match ptr.dropWhile isBlank with
  | [] => .more
  | first :: others =>
      match copyValue value (first :: others) with
      | (.more, _) => .more
      | (.bad, _) => .bad
      | (.line _, []) => .more
      | (.line content, d :: rest) =>
          if d ≠ charLf then
            .bad
          else
            match rest with
            | [] => .more
            | e :: tail =>
                if e ≠ charSpace ∨ e ≠ charTab then
                  .value (trimRight content) (e :: tail)
                else
                  .folded (trimRight content ++ [charSpace]) tail

def valueLoop : Nat → Bytes → Bytes → ValueRound
  | 0, _, _ => .more
  | fuel + 1, value, ptr =>
      match valueRound value ptr with
      | .folded content rest => valueLoop fuel content rest
      | result => result

def HttpParser.name (parser : HttpParser) : Bytes := cString parser.namebuf.toList

def parseHeaderValue (ptr : Bytes) (parser : HttpParser) : Int × HttpParser :=
  match valueLoop (ptr.length + 1) [] ptr with
  | .value content rest =>
      let next := matchMessageHeader parser.name content parser
      (1, { next with
        headerOffset := next.headerOffset + (ptr.length - rest.length)
        headerState := .headerName })
  | .bad => (-2, parser)
  | _ => (0, parser)

/-- `while (ret > 0)`. -/
def verdictOf (ret : Int) : Resume.Verdict Int :=
  if 0 < ret then .again else if ret = 0 then .more else .stop ret

def parseHeaderStep (parser : HttpParser) (ptr : Bytes) : Resume.Verdict Int × HttpParser :=
  match parser.headerState with
  | .startLine =>
      let result := parseStartLine ptr parser
      (verdictOf result.1, result.2)
  | .headerValue =>
      let result := parseHeaderValue ptr parser
      (verdictOf result.1, result.2)
  | _ =>
      let result := parseHeaderName ptr parser
      if result.2.headerState = .headerComplete then (.stop 1, result.2)
      else (verdictOf result.1, result.2)

def headerMachine : Resume.Machine UInt8 HttpParser Int :=
  { step := parseHeaderStep, offset := HttpParser.headerOffset }

def retOf : Resume.Verdict Int → Int
  | .stop ret => ret
  | _ => 0

def parseMessageHeader (message : Bytes) (parser : HttpParser) : Int × HttpParser :=
  let result := headerMachine.run message parser
  (retOf result.1, result.2)

def parseChunkData (ptr : Bytes) (parser : HttpParser) : Int × HttpParser :=
  match scanLine httpChunkLineMax false [] ptr with
  | .more => (0, parser)
  | .bad => (-2, parser)
  | .line content =>
      let (chunkSize, stop) := strtol 16 content
      if stop = 0 then
        (-2, parser)
      else if chunkSize = 0 then
        (1, { parser with
          chunkState := .trailerPart
          chunkOffset := parser.chunkOffset + (content.length + 2) })
      else if sizeOfInt chunkSize < chunkSizeMax then
        if ptr.length < chunkSize.toNat + (content.length + 4) then
          (0, parser)
        else
          (1, { parser with
            chunkOffset := parser.chunkOffset + (chunkSize.toNat + (content.length + 4)) })
      else
        (-2, parser)

def parseTrailerPart (ptr : Bytes) (parser : HttpParser) : Int × HttpParser :=
  match scanLine httpTrailerLineMax false [] ptr with
  | .more => (0, parser)
  | .bad => (-2, parser)
  | .line content =>
      (1, { parser with
        chunkOffset := parser.chunkOffset + (content.length + 2)
        chunkState := if content.length = 0 then .chunkComplete else parser.chunkState })

def parseChunkStep (parser : HttpParser) (ptr : Bytes) : Resume.Verdict Int × HttpParser :=
  match parser.chunkState with
  | .chunkData =>
      let result := parseChunkData ptr parser
      (verdictOf result.1, result.2)
  | _ =>
      let result := parseTrailerPart ptr parser
      if result.2.chunkState = .chunkComplete then (.stop 1, result.2)
      else (verdictOf result.1, result.2)

def chunkMachine : Resume.Machine UInt8 HttpParser Int :=
  { step := parseChunkStep, offset := HttpParser.chunkOffset }

def parseChunk (message : Bytes) (parser : HttpParser) : Int × HttpParser :=
  let result := chunkMachine.run message parser
  (retOf result.1, result.2)

/-- `while (new_size < need) new_size *= 2`. -/
def doubleUpTo : Nat → Nat → Nat → Nat
  | 0, _, newSize => newSize
  | fuel + 1, need, newSize =>
      if newSize < need then doubleUpTo fuel need (newSize * 2) else newSize

/-- Make room for `n` more bytes and the terminating NUL. -/
def growBuffer (n : Nat) (parser : HttpParser) : HttpParser :=
  let need := parser.msgsize + n + 1
  if need > parser.bufsize then
    { parser with
      bufsize := doubleUpTo need need (max httpMsgbufInitSize (2 * parser.bufsize)) }
  else
    parser

def appendBytes (buf : Bytes) (parser : HttpParser) : HttpParser :=
  { growBuffer buf.length parser with msgbuf := parser.msgbuf ++ buf }

/-- What follows a header that has just become complete. -/
def startBody (parser : HttpParser) : HttpParser :=
  if parser.chunked then
    { parser with chunkOffset := parser.headerOffset, chunkState := .chunkData }
  else if parser.transferLength = sizeMax then
    { parser with transferLength := parser.contentLength }
  else
    parser

/-- The message ends at `total`: what lies behind it is given back through `*n`. -/
def endMessage (total n : Nat) (parser : HttpParser) : Int × Nat × HttpParser :=
  (1, sizeSub n (sizeSub parser.msgsize total),
    { parser with msgbuf := parser.msgbuf.take total, complete := true })

/-- The part of `http_parser_append_message` after the header. -/
def parseBody (n : Nat) (parser : HttpParser) : Int × Nat × HttpParser :=
  if parser.transferLength ≠ sizeMax then
    let total := sizeAdd parser.headerOffset parser.transferLength
    if total ≤ parser.msgsize then
      endMessage total n parser
    else
      (0, n, parser)
  else if !parser.chunked then
    (0, n, parser)
  else if parser.chunkState ≠ .chunkComplete then
    let result := parseChunk parser.msgbuf parser
    if result.1 ≤ 0 then
      (result.1, n, result.2)
    else
      endMessage result.2.chunkOffset n result.2
  else
    endMessage parser.chunkOffset n parser

/-- The scanning that follows the copy of a fragment into the buffer. -/
def parseBuffered (n : Nat) (parser : HttpParser) : Int × Nat × HttpParser :=
  if parser.headerState ≠ .headerComplete then
    let result := parseMessageHeader parser.msgbuf parser
    if result.1 ≤ 0 then
      (result.1, n, result.2)
    else
      parseBody n (startBody result.2)
  else
    parseBody n parser

/-- `http_parser_append_message(buf, &n, parser)` with `n` the number of bytes of `buf`: the returned
code, the new `n` and the new parser. -/
def httpParserAppendMessage (buf : Bytes) (parser : HttpParser) : Int × Nat × HttpParser :=
  if parser.complete then
    (1, 0, parser)
  else
    parseBuffered buf.length (appendBytes buf parser)

/-- `http_parser_close_message`, as `HttpMessage::end_parsing` calls it after an error. -/
def httpParserCloseMessage (parser : HttpParser) : HttpParser := { parser with complete := true }

/-- `http_parser_get_body`: the body and its size as the function computes it, where the body pointer
is the list of the buffered bytes from `header_offset` on. -/
def httpParserGetBody (parser : HttpParser) : Option (Bytes × Nat) :=
  if parser.complete && parser.headerState == .headerComplete then
    some (parser.msgbuf.drop parser.headerOffset, sizeSub parser.msgsize parser.headerOffset)
  else
    none

/-- What the caller has seen after a sequence of calls: the last code, the sum of the returned `n` and
the parser. -/
structure Fed where
  code : Int
  consumed : Nat
  parser : HttpParser
  deriving DecidableEq

/-- Fragments go in one by one until a call returns nonzero. -/
def feed : List Bytes → HttpParser → Fed
  | [], parser => { code := 0, consumed := 0, parser := parser }
  | fragment :: rest, parser =>
      let (code, n, next) := httpParserAppendMessage fragment parser
      if code ≠ 0 then
        { code := code, consumed := n, parser := next }
      else
        let fed := feed rest next
        { fed with consumed := n + fed.consumed }

/-- A parser as the message classes set it up, `zeroBody` for the answer to a HEAD request. -/
def freshParser (isResp zeroBody : Bool) (memory : HttpParser) : HttpParser :=
  if zeroBody then parseZeroBody (httpParserInit isResp memory) else httpParserInit isResp memory

/-- A parser in zeroed memory. -/
def zeroedParser : HttpParser :=
  { headerState := .startLine, chunkState := .chunkData, headerOffset := 0, chunkOffset := 0
    contentLength := 0, transferLength := 0, version := none, method := none, uri := none
    code := none, phrase := none, headerList := [], namebuf := Vector.replicate _ 0, msgbuf := []
    bufsize := 0, expectContinue := false, keepAlive := false, chunked := false, complete := false
    isResp := false }

end WorkflowModel.Http
