import WorkflowModel.Http.Parser

/-!
# The chunk cursor

`HttpChunkCursor` in `HttpUtil.cc` walks over the body of a message that has been parsed. It runs
`strtol` and `strchr` on the body itself, behind which `http_parser_get_body` has written a NUL. A
pointer into the body is its offset. What the source leaves undefined, reading outside the body and
arithmetic on the null pointer of a failed search, is the result `fault`.
-/

namespace WorkflowModel.Http

open WorkflowModel

/-- `HttpMessage::get_parsed_body`: the memory from the body on, up to the NUL behind it, and the
size. -/
def getParsedBody (parser : HttpParser) : Option (Bytes × Nat) :=
  (httpParserGetBody parser).map fun (body, size) => (body ++ [charNul], size)

structure HttpChunkCursor where
  body : Option Bytes
  bodyLen : Nat
  pos : Nat
  chunked : Bool
  ended : Bool
  deriving DecidableEq

def HttpChunkCursor.init (parser : HttpParser) : HttpChunkCursor :=
  match getParsedBody parser with
  | some (body, size) =>
      { body := some body, bodyLen := size, pos := 0, chunked := parser.chunked, ended := false }
  | none => { body := none, bodyLen := 0, pos := 0, chunked := false, ended := true }

inductive NextChunk where
  | done
  | chunk (start size : Nat)
  | fault
  deriving DecidableEq, Repr

def HttpChunkCursor.next (cursor : HttpChunkCursor) : NextChunk × HttpChunkCursor :=
  if cursor.ended then
    (.done, cursor)
  else if !cursor.chunked then
    (.chunk 0 cursor.bodyLen, { cursor with ended := true })
  else
    let memory := cursor.body.getD []
    if memory.length ≤ cursor.pos then
      (.fault, cursor)
    else
      let (value, stop) := strtol 16 (memory.drop cursor.pos)
      let size := sizeOfInt value
      if size = 0 then
        (.done, { cursor with ended := true })
      else
        match strchr charCr (memory.drop (cursor.pos + stop)) with
        | none => (.fault, cursor)
        | some index =>
            let cur := cursor.pos + stop + index
            (.chunk (cur + 2) size, { cursor with pos := sizeAdd cur (sizeAdd size 4) })

def HttpChunkCursor.rewind (cursor : HttpChunkCursor) : HttpChunkCursor :=
  if cursor.body.isSome then { cursor with pos := 0, ended := false } else cursor

/-- The ranges that repeated calls of `next` return before one returns false. -/
def HttpChunkCursor.ranges : Nat → HttpChunkCursor → Option (List (Nat × Nat))
  | 0, _ => none
  | calls + 1, cursor =>
      match cursor.next with
      | (.done, _) => some []
      | (.chunk start size, next) => (next.ranges calls).map ((start, size) :: ·)
      | (.fault, _) => none

/-- `while (cursor.next(&chunk, &chunk_size)) decode_result.append(chunk, chunk_size)`. -/
def decodeLoop : Nat → HttpChunkCursor → Bytes → Option Bytes
  | 0, _, _ => none
  | calls + 1, cursor, result =>
      match cursor.next with
      | (.done, _) => some result
      | (.chunk start size, next) =>
          decodeLoop calls next (result ++ ((cursor.body.getD []).drop start).take size)
      | (.fault, _) => none

/-- `HttpUtil::decode_chunked_body`. Each chunk takes bytes of the body, which bounds the calls. -/
def decodeChunkedBody (parser : HttpParser) : Option Bytes :=
  match getParsedBody parser with
  | some (_, size) => decodeLoop (size + 1) (HttpChunkCursor.init parser) []
  | none => some []

end WorkflowModel.Http
