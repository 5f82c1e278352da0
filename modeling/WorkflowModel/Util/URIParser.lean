import WorkflowModel.CString

/-!
# The parser of URIs

`parse` goes over the string once: the scheme, a search for the `@` of the user information, a host in
brackets, and then a loop that cuts the rest at `:`, `/`, `?` and `#`. It keeps where the seven components
begin and end (0 to 6: scheme, userinfo, host, port, path, query, fragment), and it copies them only when the
characters of all of them are valid.

A string is its bytes before the NUL, and `strAt` reads the NUL behind them. A position is an `int` in the
source; here it is a number. `alloc` says for which components `realloc` has memory.
-/

namespace WorkflowModel.Util.URIParser

def charPercent : UInt8 := 37
def charPlus : UInt8 := 43
def charSlash : UInt8 := 47
def charQuestion : UInt8 := 63
def charAt : UInt8 := 64
def charHash : UInt8 := 35
def charOpen : UInt8 := 91
def charClose : UInt8 := 93

def isAlpha (c : UInt8) : Bool := (65 ≤ c && c ≤ 90) || (97 ≤ c && c ≤ 122)

def isXDigit (c : UInt8) : Bool := isDigit c || (65 ≤ c && c ≤ 70) || (97 ≤ c && c ≤ 102)

def sep : List UInt8 := [charColon, charSlash, charQuestion, charHash]

def schemeChars : List Nat := [
  0, 0, 0, 0, 0, 0, 0, 0, 0, 0, 0, 0, 0, 0, 0, 0,
  0, 0, 0, 0, 0, 0, 0, 0, 0, 0, 0, 0, 0, 0, 0, 0,
  0, 0, 0, 0, 0, 0, 0, 0, 0, 0, 0, 1, 0, 1, 1, 0,
  1, 1, 1, 1, 1, 1, 1, 1, 1, 1, 0, 0, 0, 0, 0, 0,
  0, 1, 1, 1, 1, 1, 1, 1, 1, 1, 1, 1, 1, 1, 1, 1,
  1, 1, 1, 1, 1, 1, 1, 1, 1, 1, 1, 0, 0, 0, 0, 0,
  0, 1, 1, 1, 1, 1, 1, 1, 1, 1, 1, 1, 1, 1, 1, 1,
  1, 1, 1, 1, 1, 1, 1, 1, 1, 1, 1, 0, 0, 0, 0, 0]

def authorityChars : List Nat := [
  0, 0, 0, 0, 0, 0, 0, 0, 0, 0, 0, 0, 0, 0, 0, 0,
  0, 0, 0, 0, 0, 0, 0, 0, 0, 0, 0, 0, 0, 0, 0, 0,
  0, 1, 0, 0, 1, 1, 1, 1, 1, 1, 1, 1, 1, 1, 1, 0,
  1, 1, 1, 1, 1, 1, 1, 1, 1, 1, 1, 1, 0, 1, 0, 0,
  0, 1, 1, 1, 1, 1, 1, 1, 1, 1, 1, 1, 1, 1, 1, 1,
  1, 1, 1, 1, 1, 1, 1, 1, 1, 1, 1, 0, 0, 0, 0, 1,
  0, 1, 1, 1, 1, 1, 1, 1, 1, 1, 1, 1, 1, 1, 1, 1,
  1, 1, 1, 1, 1, 1, 1, 1, 1, 1, 1, 0, 0, 0, 1, 0]

def portChars : List Nat := [
  0, 0, 0, 0, 0, 0, 0, 0, 0, 0, 0, 0, 0, 0, 0, 0,
  0, 0, 0, 0, 0, 0, 0, 0, 0, 0, 0, 0, 0, 0, 0, 0,
  0, 0, 0, 0, 0, 0, 0, 0, 0, 0, 0, 0, 0, 0, 0, 0,
  1, 1, 1, 1, 1, 1, 1, 1, 1, 1, 0, 0, 0, 0, 0, 0,
  0, 0, 0, 0, 0, 0, 0, 0, 0, 0, 0, 0, 0, 0, 0, 0,
  0, 0, 0, 0, 0, 0, 0, 0, 0, 0, 0, 0, 0, 0, 0, 0,
  0, 0, 0, 0, 0, 0, 0, 0, 0, 0, 0, 0, 0, 0, 0, 0,
  0, 0, 0, 0, 0, 0, 0, 0, 0, 0, 0, 0, 0, 0, 0, 0]

def pathChars : List Nat := [
  0, 0, 0, 0, 0, 0, 0, 0, 0, 0, 0, 0, 0, 0, 0, 0,
  0, 0, 0, 0, 0, 0, 0, 0, 0, 0, 0, 0, 0, 0, 0, 0,
  0, 1, 0, 0, 1, 1, 1, 1, 1, 1, 1, 1, 1, 1, 1, 1,
  1, 1, 1, 1, 1, 1, 1, 1, 1, 1, 1, 1, 0, 1, 0, 0,
  1, 1, 1, 1, 1, 1, 1, 1, 1, 1, 1, 1, 1, 1, 1, 1,
  1, 1, 1, 1, 1, 1, 1, 1, 1, 1, 1, 0, 0, 0, 0, 1,
  0, 1, 1, 1, 1, 1, 1, 1, 1, 1, 1, 1, 1, 1, 1, 1,
  1, 1, 1, 1, 1, 1, 1, 1, 1, 1, 1, 0, 0, 0, 1, 0]

def queryChars : List Nat := [
  0, 0, 0, 0, 0, 0, 0, 0, 0, 0, 0, 0, 0, 0, 0, 0,
  0, 0, 0, 0, 0, 0, 0, 0, 0, 0, 0, 0, 0, 0, 0, 0,
  0, 1, 0, 0, 1, 1, 1, 1, 1, 1, 1, 1, 1, 1, 1, 1,
  1, 1, 1, 1, 1, 1, 1, 1, 1, 1, 1, 1, 0, 1, 0, 1,
  1, 1, 1, 1, 1, 1, 1, 1, 1, 1, 1, 1, 1, 1, 1, 1,
  1, 1, 1, 1, 1, 1, 1, 1, 1, 1, 1, 0, 0, 0, 0, 1,
  0, 1, 1, 1, 1, 1, 1, 1, 1, 1, 1, 1, 1, 1, 1, 1,
  1, 1, 1, 1, 1, 1, 1, 1, 1, 1, 1, 0, 0, 0, 1, 0]

/-- The seven rows. The source writes the rows for userinfo and host, and for query and fragment, twice. -/
def validRows : List (List Nat) :=
  [schemeChars, authorityChars, authorityChars, portChars, pathChars, queryChars, queryChars]

/-- `valid_char[i][c]`. The second half of each row is zero. -/
def validChar (i : Nat) (c : UInt8) : Bool := (validRows.getD i []).getD c.toNat 0 == 1

def strAt (s : Bytes) (cur : Nat) : UInt8 := s.getD cur charNul

/-- A loop that moves on while the string has a character with the property. -/
def skipWhile (p : UInt8 → Bool) (s : Bytes) (cur : Nat) : Nat := cur + ((s.drop cur).takeWhile p).length

/-- The arrays `st` and `ed`. -/
structure Marks where
  st : Nat → Nat
  ed : Nat → Nat

def Marks.zero : Marks := { st := fun _ => 0, ed := fun _ => 0 }

def Marks.set (m : Marks) (i st ed : Nat) : Marks :=
  { st := Function.update m.st i st, ed := Function.update m.ed i ed }

/-- The characters from `st[i]` to `ed[i]`. -/
def Marks.text (m : Marks) (s : Bytes) (i : Nat) : Bytes := (s.drop (m.st i)).take (m.ed i - m.st i)

/-- The variables of the loop over the separators. -/
structure Cut where
  cur : Nat
  last : Nat
  idx : Nat
  isIpv6 : Bool
  marks : Marks

/-- The index from `idx` on at which `sep` has the character. -/
def sepIndex (idx : Nat) (c : UInt8) : Option Nat :=
  (List.range 4).find? fun i => idx ≤ i && sep.getD i charNul == c

/-- What one round of the loop does at a separator with index `i`, up to its `cur++`. -/
def Cut.close (x : Cut) (i : Nat) : Cut :=
  { x with
    marks := if x.isIpv6 then x.marks else x.marks.set (x.idx + 2) x.last x.cur
    isIpv6 := false
    idx := i + 1
    last := if sep.getD i charNul = charSlash then x.cur else x.cur + 1 }

def Cut.round (x : Cut) (c : UInt8) : Cut :=
  let x := match sepIndex x.idx c with
    | some i => x.close i
    | none => x
  { x with cur := x.cur + 1 }

/-- The component that is still open at the end. -/
def Cut.finish (x : Cut) : Marks :=
  if x.cur > x.last ∧ x.isIpv6 = false then x.marks.set (x.idx + 2) x.last x.cur else x.marks

def cutRest (s : Bytes) (x : Cut) : Marks := ((s.drop x.cur).foldl Cut.round x).finish

/-- From the beginning of the host on. A host in brackets leaves `last` where it was, behind `://`. -/
def markHost (s : Bytes) (marks : Marks) (last cur : Nat) : Option Marks :=
  if strAt s cur = charOpen then
    let close := skipWhile (· != charClose) s (cur + 1)
    if strAt s close ≠ charClose then none
    else if strAt s (close + 1) ≠ charNul ∧ strAt s (close + 1) ∉ sep then none
    else some (cutRest s
      { cur := close + 1, last := last, idx := 0, isIpv6 := true, marks := marks.set 2 (cur + 1) close })
  else some (cutRest s { cur := cur, last := cur, idx := 0, isIpv6 := false, marks := marks })

/-- From the position behind `://` on: what comes before the first `@` is the userinfo. -/
def markAuthority (s : Bytes) (marks : Marks) (cur : Nat) : Option Marks :=
  let i := skipWhile (· != charAt) s cur
  if i < s.length then markHost s (marks.set 1 cur i) cur (i + 1) else markHost s marks cur cur

def mark (s : Bytes) : Option Marks :=
  if strAt s 0 = charNul ∨ isAlpha (strAt s 0) = false then none
  else
    let cur := skipWhile (validChar 0) s 1
    if strAt s cur = charColon ∧ strAt s (cur + 1) = charSlash ∧ strAt s (cur + 2) = charSlash then
      markAuthority s (Marks.zero.set 0 0 cur) (cur + 3)
    else none

/-- The loops over the components other than the scheme. -/
def allValid (s : Bytes) (marks : Marks) : Bool :=
  [1, 2, 3, 4, 5, 6].all fun i => (marks.text s i).all (validChar i)

inductive UriState where
  | init
  | success
  | invalid
  | error
  deriving DecidableEq, Repr

structure ParsedURI where
  scheme : Option Bytes
  userinfo : Option Bytes
  host : Option Bytes
  port : Option Bytes
  path : Option Bytes
  query : Option Bytes
  fragment : Option Bytes
  state : UriState
  error : Int
  deriving DecidableEq, Repr

def ParsedURI.init : ParsedURI :=
  { scheme := none, userinfo := none, host := none, port := none, path := none, query := none, fragment := none,
    state := .init, error := 0 }

/-- What `dst[i]` points to. -/
def ParsedURI.dst (uri : ParsedURI) : Nat → Option Bytes
  | 0 => uri.scheme
  | 1 => uri.userinfo
  | 2 => uri.host
  | 3 => uri.port
  | 4 => uri.path
  | 5 => uri.query
  | 6 => uri.fragment
  | _ => none

def ParsedURI.setDst (uri : ParsedURI) (i : Nat) (text : Option Bytes) : ParsedURI :=
  match i with
  | 0 => { uri with scheme := text }
  | 1 => { uri with userinfo := text }
  | 2 => { uri with host := text }
  | 3 => { uri with port := text }
  | 4 => { uri with path := text }
  | 5 => { uri with query := text }
  | 6 => { uri with fragment := text }
  | _ => uri

def urlDecode : Bytes → Bytes
  | [] => []
  | [c] => [if c = charPlus then charSpace else c]
  | [c, d] => (if c = charPlus then charSpace else c) :: urlDecode [d]
  | c :: high :: low :: rest =>
      if c = charPercent ∧ isXDigit high = true ∧ isXDigit low = true then
        (digitValue high * 16 + digitValue low).toUInt8 :: urlDecode rest
      else (if c = charPlus then charSpace else c) :: urlDecode (high :: low :: rest)

/-- A host that starts with `%2F` is decoded. -/
def startsEncoded : Bytes → Bool
  | a :: b :: c :: _ => a == charPercent && b == 50 && (c == 70 || c == 102)
  | _ => false

def storedText (i : Nat) (text : Bytes) : Bytes :=
  if i = 2 ∧ startsEncoded text = true then urlDecode text else text

def enomem : Int := 12

/-- The copies of the components from `i` on, with whether all of them could be made. -/
def store (alloc : Nat → Bool) (s : Bytes) (marks : Marks) : List Nat → ParsedURI → Bool × ParsedURI
  | [], uri => (true, uri)
  | i :: rest, uri =>
      if marks.ed i - marks.st i = 0 then store alloc s marks rest (uri.setDst i none)
      else if alloc i = true then store alloc s marks rest (uri.setDst i (some (storedText i (marks.text s i))))
      else (false, { uri.setDst i none with state := .error, error := enomem })

def parse (alloc : Nat → Bool) (str : Bytes) (uri : ParsedURI) : Int × ParsedURI :=
  let s := cString str
  let uri := { uri with state := .invalid }
  match mark s with
  | none => (-1, uri)
  | some marks =>
      if allValid s marks = true then
        match store alloc s marks [0, 1, 2, 3, 4, 5, 6] uri with
        | (true, uri) => (0, { uri with state := .success })
        | (false, uri) => (-1, uri)
      else (-1, uri)

end WorkflowModel.Util.URIParser
