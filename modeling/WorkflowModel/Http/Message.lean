import WorkflowModel.Http.Parser

/-!
# HTTP messages to be sent

`HttpMessage` holds the start line and the headers in an `http_parser_t`, the same type that an
incoming message is parsed into, and the body as a list of blocks. `HttpMessage::encode` turns it into
at most `max` vectors for `writev`. A vector is the list of the bytes it points to.
-/

namespace WorkflowModel.Http

open WorkflowModel

def httpParserSetMethod (method : Bytes) (parser : HttpParser) : HttpParser :=
  { parser with method := some (cString method) }

def httpParserSetUri (uri : Bytes) (parser : HttpParser) : HttpParser :=
  { parser with uri := some (cString uri) }

def httpParserSetVersion (version : Bytes) (parser : HttpParser) : HttpParser :=
  { parser with version := some (cString version) }

def httpParserSetCode (code : Bytes) (parser : HttpParser) : HttpParser :=
  { parser with code := some (cString code) }

def httpParserSetPhrase (phrase : Bytes) (parser : HttpParser) : HttpParser :=
  { parser with phrase := some (cString phrase) }

/-- The test of `http_parser_set_header` and `http_header_cursor_find`. -/
def HeaderLine.isNamed (name : Bytes) (line : HeaderLine) : Bool :=
  line.nameLen == name.length && strcaseEq line.name name

/-- A longer value gets a new buffer; a shorter one is written over the old, whose last bytes stay. The lengths are
compared as `size_t`. -/
def HeaderLine.setValue (name value : Bytes) (line : HeaderLine) : HeaderLine :=
  let start :=
    if sizeOfInt line.valueLen < value.length then name ++ [charColon, charSpace]
    else line.buf.take (name.length + 2)
  let behind :=
    if sizeOfInt line.valueLen < value.length then []
    else line.buf.drop (name.length + 2 + value.length + 2)
  { line with valueLen := intOfLong value.length, buf := start ++ value ++ crlf ++ behind }

def setInLines (name value : Bytes) : List HeaderLine → Option (List HeaderLine)
  | [] => none
  | line :: rest =>
      if line.isNamed name then some (line.setValue name value :: rest)
      else (setInLines name value rest).map (line :: ·)

def httpParserSetHeader (name value : Bytes) (parser : HttpParser) : HttpParser :=
  match setInLines name value parser.headerList with
  | some lines => { parser with headerList := lines }
  | none => httpParserAddHeader name value parser

/-- `http_header_cursor_find` from the start of the list. -/
def httpHeaderCursorFind (name : Bytes) (parser : HttpParser) : Option HeaderLine :=
  parser.headerList.find? (HeaderLine.isNamed name)

structure HttpMessage where
  parser : HttpParser
  outputBody : List Bytes
  outputBodySize : Nat
  size_eq : outputBodySize = outputBody.flatten.length

def HttpMessage.init (isResp : Bool) (memory : HttpParser) : HttpMessage :=
  { parser := httpParserInit isResp memory, outputBody := [], outputBodySize := 0, size_eq := rfl }

def HttpMessage.appendOutputBody (buf : Bytes) (msg : HttpMessage) : HttpMessage :=
  { msg with
    outputBody := msg.outputBody ++ [buf]
    outputBodySize := msg.outputBodySize + buf.length
    size_eq := by simp [msg.size_eq] }

def HttpMessage.clearOutputBody (msg : HttpMessage) : HttpMessage :=
  { msg with outputBody := [], outputBodySize := 0, size_eq := rfl }

/-- The bytes that are to be sent behind the header. -/
def HttpMessage.body (msg : HttpMessage) : Bytes := msg.outputBody.flatten

inductive EncodeError where
  | badMsg
  | overflow
  deriving DecidableEq, Repr

/-- A message with a method is a request, one without is a response. -/
def startLine (parser : HttpParser) : Option (Bytes × Bytes × Bytes) :=
  match parser.method with
  | some method => do return (method, ← parser.uri, ← parser.version)
  | none => do return (← parser.version, ← parser.code, ← parser.phrase)

/-- `name_len + 2 + value_len + 2` bytes from the name on. -/
def HeaderLine.vector (line : HeaderLine) : Bytes :=
  line.buf.take (sizeAdd (sizeAdd (sizeAdd (sizeOfInt line.nameLen) 2) (sizeOfInt line.valueLen)) 2)

/-- The vectors of the headers from index `i` on; the loop ends early when `max` is reached. -/
def headerVectors (max : Int) : Nat → List HeaderLine → List Bytes
  | _, [] => []
  | i, line :: rest => if (i : Int) = max then [] else line.vector :: headerVectors max (i + 1) rest

/-- `combine_from`: one block of `size` bytes in place of the blocks that are left. -/
def combineFrom (blocks : List Bytes) (size : Nat) : Bytes := blocks.flatten.take size

/-- The vectors of the body from index `i` on, where `size` bytes are left. The last vector takes all
blocks that are left. -/
def bodyVectors (max : Int) : Nat → Nat → List Bytes → List Bytes
  | _, _, [] => []
  | i, size, block :: rest =>
      if (i : Int) + 1 = max ∧ rest ≠ [] then [combineFrom (block :: rest) size]
      else block :: bodyVectors max (i + 1) (size - block.length) rest

theorem bodyVectors_flatten (max : Int) (blocks : List Bytes) : ∀ (i : Nat) {size : Nat},
    size = blocks.flatten.length → (bodyVectors max i size blocks).flatten = blocks.flatten := by
  induction blocks with
  | nil => intros; rfl
  | cons block rest ih =>
      intro i size hsize
      rw [bodyVectors]
      split_ifs
      · rw [combineFrom, hsize, List.take_length]
        simp
      · rw [List.flatten_cons, List.flatten_cons, ih]
        rw [hsize, List.flatten_cons, List.length_append, Nat.add_sub_cancel_left]

/-- `HttpMessage::encode(vectors, max)`: the vectors, and the message with the blocks that
`combine_from` has put together. -/
def HttpMessage.encode (max : Int) (msg : HttpMessage) :
    Except EncodeError (List Bytes × HttpMessage) :=
  match startLine msg.parser with
  | none => .error .badMsg
  | some (part1, part2, part3) =>
      let start :=
        [cString part1, [charSpace], cString part2, [charSpace], cString part3, crlf]
      let headers := headerVectors max 6 msg.parser.headerList
      let i := 6 + headers.length
      if max ≤ (i : Int) + 1 then
        .error .overflow
      else
        let body := bodyVectors max (i + 1) msg.outputBodySize msg.outputBody
        .ok (start ++ headers ++ [crlf] ++ body,
          { msg with
            outputBody := body
            size_eq := by rw [bodyVectors_flatten max _ _ msg.size_eq, msg.size_eq] })

/-- The assignments of the loop over the headers, each with its index. -/
def headerWrites (max : Int) : Nat → List HeaderLine → List (Nat × Bytes)
  | _, [] => []
  | i, line :: rest => if (i : Int) = max then [] else (i, line.vector) :: headerWrites max (i + 1) rest

def bodyWrites (max : Int) : Nat → Nat → List Bytes → List (Nat × Bytes)
  | _, _, [] => []
  | i, size, block :: rest =>
      if (i : Int) + 1 = max ∧ rest ≠ [] then [(i, combineFrom (block :: rest) size)]
      else (i, block) :: bodyWrites max (i + 1) (size - block.length) rest

/-- Every `vectors[i] = ..` of a call, in their order. A call that returns -1 has made some of them. -/
def HttpMessage.encodeWrites (max : Int) (msg : HttpMessage) : List (Nat × Bytes) :=
  match startLine msg.parser with
  | none => []
  | some (part1, part2, part3) =>
      let start := [(0, cString part1), (1, [charSpace]), (2, cString part2), (3, [charSpace]),
        (4, cString part3), (5, crlf)]
      let headers := headerWrites max 6 msg.parser.headerList
      let i := 6 + headers.length
      if max ≤ (i : Int) + 1 then
        start ++ headers
      else
        start ++ headers ++ [(i, crlf)] ++ bodyWrites max (i + 1) msg.outputBodySize msg.outputBody

end WorkflowModel.Http
