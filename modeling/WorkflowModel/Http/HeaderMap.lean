import WorkflowModel.Lib.Multimap
import WorkflowModel.Http.HeaderStore

/-!
# Looking headers up

`HttpHeaderCursor` walks the list of the header lines and compares names in place. `HttpHeaderMap` copies
the headers into a map from names in lower case to the values that have the name. `get_strict` that returns
a vector reads the map with the operator that inserts.
-/

namespace WorkflowModel.Http

open WorkflowModel

/-- The test of `http_header_cursor_find`. -/
def HeaderLine.matchesName (name : Bytes) (line : HeaderLine) : Bool :=
  sizeOfInt line.nameLen == name.length && strncaseEq (line.buf.take name.length) name

/-- `http_header_cursor_find`: the value of the next line with this name. A cursor is the list of the lines
that it has not passed. -/
def cursorFind (name : Bytes) : List HeaderLine → Option Bytes × List HeaderLine
  | [] => (none, [])
  | line :: rest =>
      if line.matchesName name then
        (some ((line.buf.drop (name.length + 2)).take (sizeOfInt line.valueLen)), rest)
      else
        cursorFind name rest

/-- The values of at most `calls` calls of `HttpHeaderCursor::find` up to the first that fails. -/
def findAll (name : Bytes) : Nat → List HeaderLine → List Bytes
  | 0, _ => []
  | calls + 1, cursor =>
      match cursorFind name cursor with
      | (none, _) => []
      | (some value, rest) => value :: findAll name calls rest

abbrev HeaderMap := Bytes → Option (List Bytes)

/-- `std::transform` with `::tolower`. -/
def lowerKey (key : Bytes) : Bytes := key.map toLower

/-- The constructor of `HttpHeaderMap`, whose cursor passes every line once. -/
def headerMap (parser : HttpParser) : HeaderMap :=
  Multimap.ofList (parser.headerList.map fun line => (lowerKey line.name, line.value))

/-- The five queries. `getValue` and `getStrictValues` are those that return a `bool`. -/
inductive HeaderQuery where
  | keyExists (key : Bytes)
  | get (key : Bytes)
  | getValue (key : Bytes)
  | getStrict (key : Bytes)
  | getStrictValues (key : Bytes)
  deriving DecidableEq, Repr

/-- What they return. A query that returns `false` gives no value. -/
inductive HeaderAnswer where
  | found (answer : Bool)
  | text (value : Bytes)
  | value (value : Option Bytes)
  | vector (values : List Bytes)
  | values (values : Option (List Bytes))
  deriving DecidableEq, Repr

/-- A query, and the map after it. -/
def HeaderMap.answer (map : HeaderMap) : HeaderQuery → HeaderAnswer × HeaderMap
  | .keyExists key => (.found (map (lowerKey key)).isSome, map)
  | .get key =>
      match map (lowerKey key) with
      | some (first :: _) => (.text first, map)
      | _ => (.text [], map)
  | .getValue key =>
      match map (lowerKey key) with
      | some (first :: _) => (.value (some first), map)
      | _ => (.value none, map)
  | .getStrict key =>
      let map : HeaderMap := Multimap.touch (lowerKey key) map
      (.vector ((map (lowerKey key)).getD []), map)
  | .getStrictValues key =>
      match map (lowerKey key) with
      | some (first :: rest) => (.values (some (first :: rest)), map)
      | _ => (.values none, map)

/-- The answers to queries that come one after the other. -/
def HeaderMap.answers (map : HeaderMap) : List HeaderQuery → List HeaderAnswer
  | [] => []
  | query :: rest =>
      let result := map.answer query
      result.1 :: answers result.2 rest

end WorkflowModel.Http
