import WorkflowModel.Util.URIParser

/-!
# The string functions

The encoders and the decoder of URLs, and the splitter.

A `std::string` is its bytes, of any value. The decoder works in place: a cursor `data` reads, a cursor `dest`
writes, and `len` counts down by one at each round and by three at an escape. `isxdigit` and `isalnum` are
those of the C locale, false for every byte from 128 on.
-/

namespace WorkflowModel.Util.StringUtil

open URIParser

def isUpper (c : UInt8) : Bool := 65 ≤ c && c ≤ 90

/-- The value `__htoi` gives one character; for one that is no hexadecimal digit it has no meaning. -/
def hexValue (c : UInt8) : Int :=
  let c := if isUpper c = true then toLower c else c
  if 48 ≤ c ∧ c ≤ 57 then (c.toNat : Int) - 48 else (c.toNat : Int) - 97 + 10

/-- `__htoi` of the characters `high` and `low`, as the `char` it is stored in. -/
def htoi (high low : UInt8) : UInt8 := UInt8.ofNat ((hexValue high * 16 + hexValue low) % 256).toNat

def itoh (n : Nat) : UInt8 := if n > 9 then UInt8.ofNat (n - 10 + 65) else UInt8.ofNat (n + 48)

def isAlnum (c : UInt8) : Bool := isAlpha c || isDigit c

/-- The marks both encoders leave as they are. -/
def marks : Bytes := bytesOf "-_.!~*'()"

/-- The characters with a meaning in a URL, which only `url_encode` leaves as they are. -/
def reserved : Bytes := bytesOf ":/@?#&"

def encodeByte (keep : Bytes) (c : UInt8) : Bytes :=
  if c = charSpace then [charPlus]
  else if isAlnum c = true ∨ c ∈ keep then [c]
  else [charPercent, itoh (c.toNat >>> 4), itoh (c.toNat % 16)]

def encodeWith (keep str : Bytes) : Bytes := str.foldl (fun res c => res ++ encodeByte keep c) []

def urlEncode (str : Bytes) : Bytes := encodeWith (marks ++ reserved) str

def urlEncodeComponent (str : Bytes) : Bytes := encodeWith marks str

theorem encodeWith_eq_flatMap (keep str : Bytes) : encodeWith keep str = str.flatMap (encodeByte keep) := by
  unfold encodeWith
  rw [List.flatMap_eq_foldl]

/-- The variables of the loop of `url_decode`, with the positions of `data` and `dest` in the buffer. -/
structure Decoding where
  buf : Bytes
  data : Nat
  dest : Nat
  len : Nat

/-- One round, from the `len--` of the loop's condition on. -/
def Decoding.round (x : Decoding) : Decoding :=
  let c := strAt x.buf x.data
  let high := strAt x.buf (x.data + 1)
  let low := strAt x.buf (x.data + 2)
  if c = charPercent ∧ 2 ≤ x.len - 1 ∧ isXDigit high = true ∧ isXDigit low = true then
    { buf := x.buf.set x.dest (htoi high low), data := x.data + 3, dest := x.dest + 1, len := x.len - 3 }
  else
    { buf := x.buf.set x.dest (if c = charPlus then charSpace else c), data := x.data + 1, dest := x.dest + 1,
      len := x.len - 1 }

theorem Decoding.round_len_lt (x : Decoding) (hlen : x.len ≠ 0) : x.round.len < x.len := by
  unfold Decoding.round
  dsimp only
  split_ifs <;> dsimp only <;> omega

def Decoding.loop (x : Decoding) : Decoding :=
  if hlen : x.len = 0 then x else x.round.loop
termination_by x.len
decreasing_by exact x.round_len_lt hlen

/-- `StringUtil::url_decode` of a buffer: the buffer behind the call and the length of the text in it. -/
def urlDecodeBuffer (str : Bytes) (len : Nat) : Bytes × Nat :=
  let x := Decoding.loop { buf := str, data := 0, dest := 0, len := len }
  (x.buf.set x.dest charNul, x.dest)

/-- `StringUtil::url_decode` of a `std::string`. The buffer of `c_str()` has a NUL behind the text, and
`resize` cuts the text off; that the last character is taken off and put back keeps only a shared buffer apart. -/
def urlDecodeString (str : Bytes) : Bytes :=
  if str = [] then str
  else
    let (buf, sz) := urlDecodeBuffer (str ++ [charNul]) str.length
    buf.take sz

/-- `StringUtil::split`. `next` is found behind the piece, and the next piece starts one character further. -/
def split (sep : UInt8) (str : Bytes) : List Bytes :=
  let piece := str.takeWhile (· != sep)
  if str.length ≤ piece.length then [piece] else piece :: split sep (str.drop (piece.length + 1))
termination_by str.length
decreasing_by
  simp only [List.length_drop]
  omega

def startWith (str start : Bytes) : Bool :=
  if str.length < start.length then false else str.take start.length == start

end WorkflowModel.Util.StringUtil
