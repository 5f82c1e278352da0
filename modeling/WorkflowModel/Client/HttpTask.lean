import WorkflowModel.Http.Message

/-!
# The HTTP client task

`ComplexHttpTask::message_out` runs when the connection stands and completes the headers of the
request: the length of the body for some methods, and whether the connection is to be kept. It also
settles the keep-alive time of the task. The task has no `prepare` function, which could change the
request afterwards.
-/

namespace WorkflowModel.Client

open WorkflowModel Http

def httpKeepaliveMax : Nat := 300 * 1000

def strip (str : Bytes) : Bytes := ((str.dropWhile isSpace).reverse.dropWhile isSpace).reverse

/-- One parameter `key=value` of a `Keep-Alive` header, when the key is `timeout`. -/
def keepAliveTimeout (param : Bytes) : Option Int :=
  let arr := param.splitOn 61
  let key := strip (arr.headD [])
  let val := strip (if arr.length < 2 then bytesOf "0" else arr.getD 1 [])
  if strcaseEq (cString key) (bytesOf "timeout") then some (atoi (cString val)) else none

/-- A `Transfer-Encoding` other than `identity`. -/
def isChunkedRequest (parser : HttpParser) : Bool :=
  match httpHeaderCursorFind (bytesOf "Transfer-Encoding") parser with
  | some line =>
      0 < line.valueLen && !(line.valueLen == 8 && strcaseEq line.value (bytesOf "identity"))
  | none => false

/-- The methods whose requests get a `Content-Length`: one is compared with `strcmp`, the other with
`strcasecmp`. -/
def takesLength (method : Bytes) : Bool :=
  cString method == bytesOf "POST" || strcaseEq (cString method) (bytesOf "PUT")

def withContentLength (req : HttpMessage) : HttpMessage :=
  if !isChunkedRequest req.parser && req.parser.method.any takesLength then
    match httpHeaderCursorFind (bytesOf "Content-Length") req.parser with
    | some _ => req
    | none =>
        { req with
          parser := httpParserAddHeader (bytesOf "Content-Length") (decimal req.outputBodySize)
            req.parser }
  else
    req

/-- The `Connection` header, and whether the connection is kept. -/
def withConnection (keepAliveTimeo : Int) (req : HttpMessage) : Bool × HttpMessage :=
  match httpHeaderCursorFind (bytesOf "Connection") req.parser with
  | some line => (line.valueLen == 10 && strcaseEq line.value (bytesOf "Keep-Alive"), req)
  | none =>
      let isAlive := keepAliveTimeo != 0
      let value := if isAlive then bytesOf "Keep-Alive" else bytesOf "close"
      (isAlive,
        { req with parser := httpParserAddHeader (bytesOf "Connection") value req.parser })

/-- The keep-alive time that a `Keep-Alive` header asks for, at most the maximum. -/
def keepAliveTimeoOf (keepAliveTimeo : Int) (parser : HttpParser) : Int :=
  let asked :=
    match httpHeaderCursorFind (bytesOf "Keep-Alive") parser with
    | some line => ((line.value.splitOn 44).findSome? keepAliveTimeout).getD keepAliveTimeo
    | none => keepAliveTimeo
  if (httpKeepaliveMax : Int) < asked % 2 ^ 32 then httpKeepaliveMax else asked

/-- `ComplexHttpTask::message_out`: the keep-alive time of the task and the request to be sent. -/
def messageOut (keepAliveTimeo : Int) (req : HttpMessage) : Int × HttpMessage :=
  let (isAlive, out) := withConnection keepAliveTimeo (withContentLength req)
  (if isAlive then keepAliveTimeoOf keepAliveTimeo out.parser else 0, out)

end WorkflowModel.Client
