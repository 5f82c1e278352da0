import Mathlib.Data.List.Basic

/-!
# Base64

Three bytes are four digits of six bits, each written as a character of an alphabet of 64. The last group is
filled up with zero bits and padded with equals signs. The decoder takes the text apart again, and stops at a
group that is none.
-/

namespace Base64

/-- The character of a digit. -/
def charOf (digit : Nat) : UInt8 :=
  if digit < 26 then (65 + digit).toUInt8
  else if digit < 52 then (71 + digit).toUInt8
  else if digit < 62 then (digit - 4).toUInt8
  else if digit = 62 then 43
  else 47

def digitOf (c : UInt8) : Option Nat :=
  if 65 ≤ c ∧ c ≤ 90 then some (c.toNat - 65)
  else if 97 ≤ c ∧ c ≤ 122 then some (c.toNat - 71)
  else if 48 ≤ c ∧ c ≤ 57 then some (c.toNat + 4)
  else if c = 43 then some 62
  else if c = 47 then some 63
  else none

def charPad : UInt8 := 61

/-- The four digits of three bytes. -/
def digit₁ (a : UInt8) : Nat := a.toNat / 4

def digit₂ (a b : UInt8) : Nat := a.toNat % 4 * 16 + b.toNat / 16

def digit₃ (b c : UInt8) : Nat := b.toNat % 16 * 4 + c.toNat / 64

def digit₄ (c : UInt8) : Nat := c.toNat % 64

def encode : List UInt8 → List UInt8
  | a :: b :: c :: rest =>
      charOf (digit₁ a) :: charOf (digit₂ a b) :: charOf (digit₃ b c) :: charOf (digit₄ c) :: encode rest
  | [a, b] => [charOf (digit₁ a), charOf (digit₂ a b), charOf (digit₃ b 0), charPad]
  | [a] => [charOf (digit₁ a), charOf (digit₂ a 0), charPad, charPad]
  | [] => []

/-- The bytes that four digits were made of. -/
def byte₁ (v w : Nat) : UInt8 := (v * 4 + w / 16).toUInt8

def byte₂ (w x : Nat) : UInt8 := (w % 16 * 16 + x / 4).toUInt8

def byte₃ (x y : Nat) : UInt8 := (x % 4 * 64 + y).toUInt8

def decode : List UInt8 → List UInt8
  | c₁ :: c₂ :: c₃ :: c₄ :: rest =>
      match digitOf c₁, digitOf c₂, digitOf c₃, digitOf c₄ with
      | some v, some w, some x, some y => byte₁ v w :: byte₂ w x :: byte₃ x y :: decode rest
      | some v, some w, some x, none => if c₄ = charPad then [byte₁ v w, byte₂ w x] else []
      | some v, some w, none, none => if c₃ = charPad ∧ c₄ = charPad then [byte₁ v w] else []
      | _, _, _, _ => []
  | _ => []

theorem digitOf_charOf {digit : Nat} (h : digit < 64) : digitOf (charOf digit) = some digit := by
  have hall : ∀ digit < 64, digitOf (charOf digit) = some digit := by decide
  exact hall digit h

theorem charOf_ne_zero (digit : Nat) : charOf digit ≠ 0 := by
  by_cases h : digit < 64
  · intro heq
    have hdigit := digitOf_charOf h
    rw [heq] at hdigit
    cases hdigit
  · unfold charOf
    rw [if_neg (by omega), if_neg (by omega), if_neg (by omega), if_neg (by omega)]
    decide

theorem digitOf_charPad : digitOf charPad = none := by decide

variable (a b c : UInt8)

theorem digitOf_digit₁ : digitOf (charOf (digit₁ a)) = some (digit₁ a) := by
  apply digitOf_charOf
  have ha := a.toNat_lt
  unfold digit₁
  omega

theorem digitOf_digit₂ : digitOf (charOf (digit₂ a b)) = some (digit₂ a b) := by
  apply digitOf_charOf
  have hb := b.toNat_lt
  unfold digit₂
  omega

theorem digitOf_digit₃ : digitOf (charOf (digit₃ b c)) = some (digit₃ b c) := by
  apply digitOf_charOf
  have hc := c.toNat_lt
  unfold digit₃
  omega

theorem digitOf_digit₄ : digitOf (charOf (digit₄ c)) = some (digit₄ c) := by
  apply digitOf_charOf
  unfold digit₄
  omega

theorem toUInt8_eq {n : Nat} {x : UInt8} (h : n = x.toNat) : n.toUInt8 = x := by
  rw [h]
  exact UInt8.ofNat_toNat

theorem byte₁_digits : byte₁ (digit₁ a) (digit₂ a b) = a := by
  have hb := b.toNat_lt
  apply toUInt8_eq
  unfold digit₁ digit₂
  omega

theorem byte₂_digits : byte₂ (digit₂ a b) (digit₃ b c) = b := by
  have hb := b.toNat_lt
  have hc := c.toNat_lt
  apply toUInt8_eq
  unfold digit₂ digit₃
  omega

theorem byte₃_digits : byte₃ (digit₃ b c) (digit₄ c) = c := by
  have hc := c.toNat_lt
  apply toUInt8_eq
  unfold digit₃ digit₄
  omega

theorem decode_encode (s : List UInt8) : decode (encode s) = s := by
  induction s using encode.induct with
  | case1 a b c rest ih =>
      simp only [encode, decode, digitOf_digit₁, digitOf_digit₂, digitOf_digit₃, digitOf_digit₄, byte₁_digits,
        byte₂_digits, byte₃_digits, ih]
  | case2 a b =>
      simp only [encode, decode, digitOf_digit₁, digitOf_digit₂, digitOf_digit₃, digitOf_charPad, byte₁_digits,
        byte₂_digits, if_true]
  | case3 a =>
      simp only [encode, decode, digitOf_digit₁, digitOf_digit₂, digitOf_charPad, byte₁_digits, and_self, if_true]
  | case4 => rfl

theorem length_encode (s : List UInt8) : (encode s).length = 4 * ((s.length + 2) / 3) := by
  induction s using encode.induct with
  | case1 a b c rest ih =>
      simp only [encode, List.length_cons, ih]
      omega
  | case2 a b => simp [encode]
  | case3 a => simp [encode]
  | case4 => rfl

theorem zero_notMem_encode (s : List UInt8) : 0 ∉ encode s := by
  have hpad : (0 : UInt8) ≠ charPad := by decide
  have hchar : ∀ digit, (0 : UInt8) ≠ charOf digit := fun digit => (charOf_ne_zero digit).symm
  induction s using encode.induct with
  | case1 a b c rest ih => simp [encode, hchar, ih]
  | case2 a b => simp [encode, hchar, hpad]
  | case3 a => simp [encode, hchar, hpad]
  | case4 => simp [encode]

theorem length_decode_le (s : List UInt8) : (decode s).length ≤ 3 * (s.length / 4) := by
  fun_induction decode s with
  | case1 c₁ c₂ c₃ c₄ rest v w x y h₁ h₂ h₃ h₄ ih =>
      simp only [List.length_cons]
      omega
  | _ => simp <;> omega

end Base64
