import WorkflowModel.CArray
import WorkflowModel.Http.Parser

/-!
# The parser with its accesses to memory

The sub-parsers of `http_parser.c` once more, with each read and write at its index. `message` has the bytes
of the buffer that may be read, so an index is outside of `[offset, msgsize)` where the list has no byte. A
local array is a block of its declared size. There is no result when a read or a write is out of bounds, when
a difference of sizes would wrap, and when a loop takes more rounds than it is given.
-/

namespace WorkflowModel.Http.Access

open WorkflowModel

/-- `size - offset`. -/
def remaining (size offset : Nat) : Option Nat := if offset ≤ size then some (size - offset) else none

/-- `len >= 2 && ptr[0] == '\r' && ptr[1] == '\n'`. -/
def startsWithCrlf (message : Bytes) (ptr len : Nat) : Option Bool :=
  if 2 ≤ len then do
    let c ← message[ptr]?
    if c = charCr then do
      let d ← message[ptr + 1]?
      some (d == charLf)
    else some false
  else some false

/-- How the loop over a line ends: with `i` at its bound, with a return of 0 or -2, or with a line of `i` bytes. -/
inductive LineEnd (β : Type) where
  | ran (i : Nat)
  | more
  | bad
  | line (i : Nat) (array : β)

/-- The loop over `i` that looks for a carriage return, with the number of rounds left. `store` is what it does with
`ptr[i]` first. -/
def lineLoop {β : Type} (store : Nat → UInt8 → β → Option β) (refuseNul : Bool) (message : Bytes) (ptr len : Nat) :
    Nat → Nat → β → Option (LineEnd β)
  | 0, i, _ => some (.ran i)
  | rounds + 1, i, array => do
      let c ← message[ptr + i]?
      let array ← store i c array
      if c = charCr then
        if i = len - 1 then some .more
        else do
          let d ← message[ptr + i + 1]?
          if d ≠ charLf then some .bad else some (.line i array)
      else if refuseNul && c == charNul then some .bad
      else lineLoop store refuseNul message ptr len rounds (i + 1) array

/-- `start_line[i] = ptr[i]`, and the same with `chunk_line`. -/
def storeByte (i : Nat) (c : UInt8) (array : Block UInt8) : Option (Block UInt8) := array.write i [c]

def storeNothing (_ : Nat) (_ : UInt8) (_ : Unit) : Option Unit := some ()

/-- The two `strchr` cuts of a start line, each with a NUL for the space. -/
def splitStartLine (line : Block UInt8) : Option (Option (Bytes × Bytes × Bytes)) := do
  match ← line.strchrFrom charSpace line.length 0 with
  | none => some none
  | some i => do
      let line ← line.write i [charNul]
      match ← line.strchrFrom charSpace line.length (i + 1) with
      | none => some none
      | some j => do
          let line ← line.write j [charNul]
          let p1 ← line.stringFrom line.length 0
          let p2 ← line.stringFrom line.length (i + 1)
          let p3 ← line.stringFrom line.length (j + 1)
          some (some (p1, p2, p3))

def parseStartLine (message : Bytes) (ptr len : Nat) (parser : HttpParser) : Option (Int × HttpParser) := do
  if ← startsWithCrlf message ptr len then
    some (1, { parser with headerOffset := parser.headerOffset + 2 })
  else
    match ← lineLoop storeByte true message ptr len (min httpStartLineMax len) 0 (Block.alloc httpStartLineMax) with
    | .ran i => some (if i = httpStartLineMax then -2 else 0, parser)
    | .more => some (0, parser)
    | .bad => some (-2, parser)
    | .line i line => do
        let line ← line.write i [charNul]
        match ← splitStartLine line with
        | none => some (-2, parser)
        | some (p1, p2, p3) =>
            let parser :=
              if parser.isResp then matchStatusLine p1 p2 p3 parser
              else matchRequestLine p1 p2 p3 parser
            some (1, { parser with
              headerOffset := parser.headerOffset + (i + 2)
              headerState := .headerName })

/-- `parser->namebuf[i] = c`. -/
def storeName (i : Nat) (c : UInt8) (namebuf : Vector UInt8 httpHeaderNameMax) :
    Option (Vector UInt8 httpHeaderNameMax) :=
  if i < httpHeaderNameMax then some (namebuf.setIfInBounds i c) else none

def nameLoop (message : Bytes) (ptr : Nat) :
    Nat → Nat → Vector UInt8 httpHeaderNameMax → Option (Int × Vector UInt8 httpHeaderNameMax × Nat)
  | 0, i, namebuf => some (if i = httpHeaderNameMax then -2 else 0, namebuf, i)
  | rounds + 1, i, namebuf => do
      let c ← message[ptr + i]?
      if c = charColon then do
        let namebuf ← storeName i charNul namebuf
        some (1, namebuf, i)
      else if c = charNul then some (-2, namebuf, i)
      else do
        let namebuf ← storeName i c namebuf
        nameLoop message ptr rounds (i + 1) namebuf

def parseHeaderName (message : Bytes) (ptr len : Nat) (parser : HttpParser) : Option (Int × HttpParser) := do
  if ← startsWithCrlf message ptr len then
    some (1, { parser with
      headerOffset := parser.headerOffset + 2
      headerState := .headerComplete })
  else
    match ← nameLoop message ptr (min httpHeaderNameMax len) 0 parser.namebuf with
    | (1, namebuf, i) =>
        some (1, { parser with
          namebuf := namebuf
          headerOffset := parser.headerOffset + (i + 1)
          headerState := .headerValue })
    | (ret, namebuf, _) => some (ret, { parser with namebuf := namebuf })

/-! ### Header value

`p` is `ptr - begin`, and `end - begin` is `len`. -/

/-- The loop over blanks, which finds the end or a place. -/
def skipBlanks (message : Bytes) (ptr len : Nat) : Nat → Nat → Option (Option Nat)
  | 0, _ => none
  | rounds + 1, p =>
      if p = len then some none
      else do
        let c ← message[ptr + p]?
        if isBlank c then skipBlanks message ptr len rounds (p + 1) else some (some p)

inductive CopyEnd where
  | more
  | bad
  | line (p i : Nat) (value : Block UInt8)

def copyValue (message : Bytes) (ptr len : Nat) : Nat → Nat → Nat → Block UInt8 → Option CopyEnd
  | 0, _, _, _ => none
  | rounds + 1, p, i, value =>
      if i = httpHeaderValueMax then some .bad
      else do
        let c ← message[ptr + p]?
        let value ← value.write i [c]
        if p + 1 = len then some .more
        else if c = charCr then some (.line (p + 1) i value)
        else if c = charNul then some .bad
        else copyValue message ptr len rounds (p + 1) (i + 1) value

/-- The loop that takes blanks off the end. -/
def trimBlanks (value : Block UInt8) : Nat → Option Nat
  | 0 => some 0
  | i + 1 => do
      let c ← value.cell i
      if isBlank c then trimBlanks value i else some (i + 1)

inductive ValueEnd where
  | more
  | bad
  | value (p i : Nat) (value : Block UInt8)

def valueLoop (message : Bytes) (ptr len : Nat) : Nat → Nat → Nat → Block UInt8 → Option ValueEnd
  | 0, _, _, _ => none
  | rounds + 1, p, i, value => do
      match ← skipBlanks message ptr len (len + 1) p with
      | none => some .more
      | some p => do
          match ← copyValue message ptr len (len + 1) p i value with
          | .more => some .more
          | .bad => some .bad
          | .line p i value => do
              let d ← message[ptr + p]?
              if d ≠ charLf then some .bad
              else if p + 1 = len then some .more
              else do
                let i ← trimBlanks value i
                let e ← message[ptr + (p + 1)]?
                if e ≠ charSpace ∨ e ≠ charTab then some (.value (p + 1) i value)
                else do
                  let value ← value.write i [charSpace]
                  valueLoop message ptr len rounds (p + 2) (i + 1) value

/-- `namebuf` with `strlen`, which has to find a NUL in it. -/
def nameOf (parser : HttpParser) : Option Bytes :=
  if charNul ∈ parser.namebuf.toList then some parser.name else none

def parseHeaderValue (message : Bytes) (ptr len : Nat) (parser : HttpParser) : Option (Int × HttpParser) := do
  match ← valueLoop message ptr len (len + 1) 0 0 (Block.alloc httpHeaderValueMax) with
  | .more => some (0, parser)
  | .bad => some (-2, parser)
  | .value p i value => do
      let value ← value.write i [charNul]
      let content ← value.read 0 i
      let name ← nameOf parser
      let next := matchMessageHeader name content parser
      some (1, { next with
        headerOffset := next.headerOffset + p
        headerState := .headerName })

/-- A round of the loop in `__parse_message_header`. -/
def headerRound (message : Bytes) (parser : HttpParser) : Option (Int × HttpParser) := do
  let len ← remaining message.length parser.headerOffset
  match parser.headerState with
  | .startLine => parseStartLine message parser.headerOffset len parser
  | .headerValue => parseHeaderValue message parser.headerOffset len parser
  | _ => parseHeaderName message parser.headerOffset len parser

/-- After the name of a header the state is looked at. -/
def endsHeader (parser next : HttpParser) : Bool :=
  parser.headerState ≠ .startLine && parser.headerState ≠ .headerValue && next.headerState == .headerComplete

/-- `do { ... } while (ret > 0)`, with the number of rounds left. `ends` is the test inside the loop that
returns 1. -/
def doWhile (round : HttpParser → Option (Int × HttpParser)) (ends : HttpParser → HttpParser → Bool) :
    Nat → HttpParser → Option (Int × HttpParser)
  | 0, _ => none
  | rounds + 1, parser => do
      let (ret, next) ← round parser
      if ends parser next then some (1, next)
      else if 0 < ret then doWhile round ends rounds next
      else some (ret, next)

def parseMessageHeader (rounds : Nat) (message : Bytes) (parser : HttpParser) : Option (Int × HttpParser) :=
  doWhile (headerRound message) endsHeader rounds parser

def parseChunkData (message : Bytes) (ptr len : Nat) (parser : HttpParser) : Option (Int × HttpParser) := do
  match ← lineLoop storeByte false message ptr len (min httpChunkLineMax len) 0 (Block.alloc httpChunkLineMax) with
  | .ran i => some (if i = httpChunkLineMax then -2 else 0, parser)
  | .more => some (0, parser)
  | .bad => some (-2, parser)
  | .line i line => do
      let line ← line.write i [charNul]
      let text ← line.stringFrom line.length 0
      let (chunkSize, stop) := strtol 16 text
      if stop = 0 then some (-2, parser)
      else if chunkSize = 0 then
        some (1, { parser with
          chunkState := .trailerPart
          chunkOffset := parser.chunkOffset + (i + 2) })
      else if sizeOfInt chunkSize < chunkSizeMax then
        if len < chunkSize.toNat + (i + 4) then some (0, parser)
        else some (1, { parser with chunkOffset := parser.chunkOffset + (chunkSize.toNat + (i + 4)) })
      else some (-2, parser)

def parseTrailerPart (message : Bytes) (ptr len : Nat) (parser : HttpParser) : Option (Int × HttpParser) := do
  match ← lineLoop storeNothing false message ptr len (min httpTrailerLineMax len) 0 () with
  | .ran i => some (if i = httpTrailerLineMax then -2 else 0, parser)
  | .more => some (0, parser)
  | .bad => some (-2, parser)
  | .line i _ =>
      some (1, { parser with
        chunkOffset := parser.chunkOffset + (i + 2)
        chunkState := if i = 0 then .chunkComplete else parser.chunkState })

/-- A round of the loop in `__parse_chunk`. -/
def chunkRound (message : Bytes) (parser : HttpParser) : Option (Int × HttpParser) := do
  let len ← remaining message.length parser.chunkOffset
  match parser.chunkState with
  | .chunkData => parseChunkData message parser.chunkOffset len parser
  | _ => parseTrailerPart message parser.chunkOffset len parser

/-- After a trailer line the state is looked at. -/
def endsChunks (parser next : HttpParser) : Bool :=
  parser.chunkState ≠ .chunkData && next.chunkState == .chunkComplete

def parseChunk (rounds : Nat) (message : Bytes) (parser : HttpParser) : Option (Int × HttpParser) :=
  doWhile (chunkRound message) endsChunks rounds parser

/-- The bytes are copied behind those that are there, into a buffer of `bufsize` bytes. -/
def appendBytes (buf : Bytes) (parser : HttpParser) : Option HttpParser :=
  let parser := growBuffer buf.length parser
  if parser.msgsize + buf.length ≤ parser.bufsize then some { parser with msgbuf := parser.msgbuf ++ buf } else none

def parseBody (n : Nat) (parser : HttpParser) : Option (Int × Nat × HttpParser) :=
  if parser.transferLength ≠ sizeMax then
    let total := sizeAdd parser.headerOffset parser.transferLength
    if total ≤ parser.msgsize then some (endMessage total n parser) else some (0, n, parser)
  else if !parser.chunked then some (0, n, parser)
  else if parser.chunkState ≠ .chunkComplete then do
    let (ret, next) ← parseChunk (parser.msgsize + 1) parser.msgbuf parser
    if ret ≤ 0 then some (ret, n, next) else some (endMessage next.chunkOffset n next)
  else some (endMessage parser.chunkOffset n parser)

def httpParserAppendMessage (buf : Bytes) (parser : HttpParser) : Option (Int × Nat × HttpParser) :=
  if parser.complete then some (1, 0, parser)
  else do
    let parser ← appendBytes buf parser
    if parser.headerState ≠ .headerComplete then do
      let (ret, next) ← parseMessageHeader (parser.msgsize + 1) parser.msgbuf parser
      if ret ≤ 0 then some (ret, buf.length, next) else parseBody buf.length (startBody next)
    else parseBody buf.length parser

end WorkflowModel.Http.Access
