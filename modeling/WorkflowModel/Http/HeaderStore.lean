import WorkflowModel.Lib.Block
import WorkflowModel.Http.Message

/-!
# Header lines in memory

The text of a header line first lies behind its node, in the bytes that `http_parser_add_header` allocated
with it. `http_parser_set_header` writes a value over the old one, or allocates another block if the value
is longer than the one that the line records, however much room there is. Here a block holds the bytes that
were allocated for the text alone, and a call has no result if it leaves them or reads one that was never
written.
-/

namespace WorkflowModel.Http

open WorkflowModel

structure StoredLine where
  nameLen : Int
  valueLen : Int
  buf : Block UInt8
  deriving DecidableEq, Repr

def writeName (name : Bytes) (buf : Block UInt8) : Option (Block UInt8) := do
  let buf ← buf.write 0 name
  let buf ← buf.write name.length [charColon]
  buf.write (name.length + 1) [charSpace]

def writeValue (nameLen : Nat) (value : Bytes) (buf : Block UInt8) : Option (Block UInt8) := do
  let buf ← buf.write (nameLen + 2) value
  let buf ← buf.write (nameLen + 2 + value.length) [charCr]
  buf.write (nameLen + 2 + value.length + 1) [charLf]

def storeAddHeader (name value : Bytes) (lines : List StoredLine) : Option (List StoredLine) := do
  let buf ← writeName name (Block.alloc (name.length + value.length + 4))
  let buf ← writeValue name.length value buf
  some (lines ++ [{ nameLen := intOfLong name.length, valueLen := intOfLong value.length, buf := buf }])

/-- `strncasecmp` gives 0 on `s` and `t` and their length. It does not look behind a NUL. -/
def strncaseEq (s t : Bytes) : Bool := strcaseEq (cString s) (cString t)

def StoredLine.isNamed (name : Bytes) (line : StoredLine) : Option Bool :=
  if sizeOfInt line.nameLen = name.length then do
    let text ← line.buf.read 0 name.length
    some (strncaseEq text name)
  else
    some false

def StoredLine.setValue (name value : Bytes) (line : StoredLine) : Option StoredLine := do
  let buf ←
    if sizeOfInt line.valueLen < value.length then
      writeName name (Block.alloc (name.length + value.length + 4))
    else
      some line.buf
  let buf ← writeValue name.length value buf
  some { line with valueLen := intOfLong value.length, buf := buf }

def storeSetHeader (name value : Bytes) : List StoredLine → Option (List StoredLine)
  | [] => storeAddHeader name value []
  | line :: rest => do
      let named ← line.isNamed name
      if named then
        let line ← line.setValue name value
        some (line :: rest)
      else
        let rest ← storeSetHeader name value rest
        some (line :: rest)

/-- `http_header_cursor_find` with a cursor at the start of the list: the value, if a line has the name. -/
def storeFind (name : Bytes) : List StoredLine → Option (Option Bytes)
  | [] => some none
  | line :: rest => do
      let named ← line.isNamed name
      if named then
        let value ← line.buf.read (name.length + 2) (sizeOfInt line.valueLen)
        some (some value)
      else
        storeFind name rest

inductive HeaderCall where
  | add (name value : Bytes)
  | set (name value : Bytes)
  deriving DecidableEq, Repr

def storeCall (lines : List StoredLine) : HeaderCall → Option (List StoredLine)
  | .add name value => storeAddHeader name value lines
  | .set name value => storeSetHeader name value lines

def storeRun (lines : List StoredLine) : List HeaderCall → Option (List StoredLine)
  | [] => some lines
  | call :: rest => do
      let lines ← storeCall lines call
      storeRun lines rest

def callHeader (parser : HttpParser) : HeaderCall → HttpParser
  | .add name value => httpParserAddHeader name value parser
  | .set name value => httpParserSetHeader name value parser

/-- The list of headers as a list of names and values. -/
def setEntry (name value : Bytes) : List (Bytes × Bytes) → List (Bytes × Bytes)
  | [] => [(name, value)]
  | entry :: rest =>
      if strcaseEq entry.1 name then (entry.1, value) :: rest else entry :: setEntry name value rest

def callEntry (entries : List (Bytes × Bytes)) : HeaderCall → List (Bytes × Bytes)
  | .add name value => entries ++ [(name, value)]
  | .set name value => setEntry name value entries

end WorkflowModel.Http
