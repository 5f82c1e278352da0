import Mathlib.Data.List.Basic
import Mathlib.Data.List.TakeWhile
import Mathlib.Data.Int.Basic
import Mathlib.Algebra.Group.Nat.Defs
import Mathlib.Algebra.Group.Int.Defs

/-!
# Bytes, machine integers and the string functions of the C library

The sources run on a 64-bit Linux: `size_t` and `long` have 64 bits, `int` has 32. A `size_t` is a
natural number below `2^64`, and the operations that can wrap say so. The string functions are the
ones the sources call, in the C locale.
-/

namespace WorkflowModel

abbrev Bytes := List UInt8

def bytesOf (text : String) : Bytes := text.toList.map fun c => c.toNat.toUInt8

def sizeModulus : Nat := 2 ^ 64

def sizeMax : Nat := sizeModulus - 1

/-- Conversion of a signed value to `size_t`. -/
def sizeOfInt (value : Int) : Nat := (value % (sizeModulus : Int)).toNat

def sizeAdd (x y : Nat) : Nat := (x + y) % sizeModulus

def sizeSub (x y : Nat) : Nat := (x + (sizeModulus - y)) % sizeModulus

def sizeMul (x y : Nat) : Nat := x * y % sizeModulus

theorem sizeAdd_of_lt {x y : Nat} (h : x + y < sizeModulus) : sizeAdd x y = x + y :=
  Nat.mod_eq_of_lt h

theorem sizeSub_of_le {x y : Nat} (h : y ≤ x) (hx : x < sizeModulus) : sizeSub x y = x - y := by
  unfold sizeSub
  unfold sizeModulus at *
  omega

/-- Conversion of a wider value to `int`. -/
def intOfLong (value : Int) : Int := Int.bmod value (2 ^ 32)

def longMax : Int := 2 ^ 63 - 1

def longMin : Int := -2 ^ 63

def charNul : UInt8 := 0
def charTab : UInt8 := 9
def charLf : UInt8 := 10
def charCr : UInt8 := 13
def charSpace : UInt8 := 32
def charColon : UInt8 := 58

def crlf : Bytes := [charCr, charLf]

def isSpace (c : UInt8) : Bool := c == 32 || (9 ≤ c && c ≤ 13)

def isDigit (c : UInt8) : Bool := 48 ≤ c && c ≤ 57

def toLower (c : UInt8) : UInt8 := if 65 ≤ c ∧ c ≤ 90 then c + 32 else c

/-- `strcasecmp(s, t) == 0`, for strings without a NUL. -/
def strcaseEq (s t : Bytes) : Bool := s.map toLower == t.map toLower

def cString (buf : Bytes) : Bytes := buf.takeWhile (· != charNul)

theorem cString_cons {c : UInt8} (hc : c ≠ charNul) (rest : Bytes) : cString (c :: rest) = c :: cString rest :=
  List.takeWhile_cons_of_pos (bne_iff_ne.mpr hc)

theorem cString_nul (rest : Bytes) : cString (charNul :: rest) = [] :=
  List.takeWhile_cons_of_neg (by decide)

theorem charNul_notMem_cString (buf : Bytes) : charNul ∉ cString buf := by
  intro hmem
  have := List.mem_takeWhile_imp hmem
  simp at this

theorem cString_of_not_mem {s : Bytes} (h : charNul ∉ s) : cString s = s := by
  apply List.takeWhile_eq_self_iff.mpr
  intro c hc
  rw [bne_iff_ne]
  rintro rfl
  exact h hc

/-- `strchr(s, c)` as an index; the search ends at the NUL. -/
def strchr (c : UInt8) : Bytes → Option Nat
  | [] => none
  | d :: rest => if d = c then some 0 else if d = charNul then none else (strchr c rest).map (· + 1)

def digitValue (c : UInt8) : Nat :=
  if 48 ≤ c ∧ c ≤ 57 then c.toNat - 48
  else if 97 ≤ c ∧ c ≤ 122 then c.toNat - 87
  else if 65 ≤ c ∧ c ≤ 90 then c.toNat - 55
  else 36

def isDigitOf (base : Nat) (c : UInt8) : Bool := digitValue c < base

def digitsValue (base : Nat) (digits : Bytes) : Nat :=
  digits.foldl (fun value c => value * base + digitValue c) 0

def signLength : Bytes → Nat
  | c :: _ => if c = 43 ∨ c = 45 then 1 else 0
  | [] => 0

def isNegative : Bytes → Bool
  | c :: _ => c == 45
  | [] => false

/-- A leading `0x` belongs to a base 16 number when a digit follows it. -/
def hexMarkLength (base : Nat) : Bytes → Nat
  | c :: x :: d :: _ =>
      if base = 16 ∧ c = 48 ∧ toLower x = 120 ∧ isDigitOf 16 d then 2 else 0
  | _ => 0

/-- `strtol(s, &end, base)`: the value and the index `end - s`, which is 0 when there is no digit.
A value out of range is replaced by the nearest `long`. -/
def strtol (base : Nat) (s : Bytes) : Int × Nat :=
  let blanks := (s.takeWhile isSpace).length
  let signed := s.drop blanks
  let unsigned := signed.drop (signLength signed)
  let mark := hexMarkLength base unsigned
  let digits := (unsigned.drop mark).takeWhile (isDigitOf base)
  if digits = [] then
    (0, 0)
  else
    let value : Int := digitsValue base digits
    (if isNegative signed then max longMin (-value) else min longMax value,
      blanks + signLength signed + mark + digits.length)

/-- `atoi(s)`, which the C library computes as `(int)strtol(s, NULL, 10)`. -/
def atoi (s : Bytes) : Int := intOfLong (strtol 10 s).1

/-- The digits that `snprintf` writes for `%zu`; `fuel` bounds their number. -/
def decimalDigits : Nat → Nat → Bytes
  | 0, _ => []
  | fuel + 1, n =>
      if n < 10 then [(48 + n).toUInt8] else decimalDigits fuel (n / 10) ++ [(48 + n % 10).toUInt8]

def decimal (n : Nat) : Bytes := decimalDigits (n + 1) n

example : decimal 1204 = bytesOf "1204" := by decide
example : atoi (bytesOf " -42x") = -42 := by decide
example : strtol 16 (bytesOf "0x1fz") = (31, 4) := by decide

end WorkflowModel
