import WorkflowModel.CString

/-!
# Numbers in strings

`strtol` reads blanks, a sign, a mark of the base and digits. What stands behind a number does not change it
when no number goes on with it, and nothing goes on behind a NUL.
-/

namespace WorkflowModel

theorem takeWhile_append_of_stop {test : UInt8 → Bool} {c : UInt8} (l r : Bytes)
    (hc : test c = false) : (l ++ c :: r).takeWhile test = l.takeWhile test := by
  rw [List.takeWhile_append]
  split_ifs with hall
  · rw [List.takeWhile_cons_of_neg (by simp [hc]), List.append_nil]
    exact ((List.takeWhile_prefix test).eq_of_length hall).symm
  · rfl

section Strtol

/-- What `strtol` looks at behind the blanks. -/
def signedPart (s : Bytes) : Bytes := s.drop (s.takeWhile isSpace).length

def unsignedPart (s : Bytes) : Bytes := (signedPart s).drop (signLength (signedPart s))

def digitsPart (base : Nat) (s : Bytes) : Bytes :=
  ((unsignedPart s).drop (hexMarkLength base (unsignedPart s))).takeWhile (isDigitOf base)

variable {base : Nat} {line : Bytes}

theorem strtol_eq_parts (base : Nat) (s : Bytes) :
    strtol base s =
      if digitsPart base s = [] then (0, 0)
      else
        (if isNegative (signedPart s) then max longMin (-(digitsValue base (digitsPart base s) : Int))
          else min longMax (digitsValue base (digitsPart base s)),
        (s.takeWhile isSpace).length + signLength (signedPart s)
          + hexMarkLength base (unsignedPart s) + (digitsPart base s).length) := rfl

theorem digitsPart_ne_nil (h : (strtol base line).2 ≠ 0) : digitsPart base line ≠ [] := by
  intro hnil
  rw [strtol_eq_parts, if_pos hnil] at h
  exact h rfl

theorem unsignedPart_ne_nil (h : digitsPart base line ≠ []) : unsignedPart line ≠ [] := by
  intro hnil
  simp [digitsPart, hnil] at h

theorem signLength_le (s : Bytes) : signLength s ≤ s.length := by
  cases s with
  | nil => exact le_rfl
  | cons c rest =>
      simp only [signLength, List.length_cons]
      split_ifs <;> omega

theorem hexMarkLength_le (base : Nat) (s : Bytes) : hexMarkLength base s ≤ s.length := by
  unfold hexMarkLength
  split
  · split_ifs <;> simp
  · exact Nat.zero_le _

structure EndsNumber (base : Nat) (c : UInt8) : Prop where
  digit : isDigitOf base c = false
  hexDigit : isDigitOf 16 c = false
  mark : toLower c ≠ 120
  sign : ¬ (c = 43 ∨ c = 45)

theorem EndsNumber.hexMarkLength_append {c : UInt8} (h : EndsNumber base c) (unsigned rest : Bytes) :
    hexMarkLength base (unsigned ++ c :: rest) = hexMarkLength base unsigned := by
  have hzero : c ≠ 48 := by
    rintro rfl
    exact absurd h.hexDigit (by decide)
  match unsigned with
  | [] =>
      match rest with
      | [] => rfl
      | [_] => rfl
      | x :: d :: more => simp [hexMarkLength, hzero]
  | [z] =>
      cases rest with
      | nil => rfl
      | cons d rest => simp [hexMarkLength, h.mark]
  | [z, x] => simp [hexMarkLength, h.hexDigit]
  | z :: x :: d :: more => rfl

/-- A number is read alike with such a byte behind it, unless the byte goes on with the blanks. -/
theorem EndsNumber.strtol_append {c : UInt8} (h : EndsNumber base c) (rest : Bytes)
    (hblanks : (line ++ c :: rest).takeWhile isSpace = line.takeWhile isSpace) :
    strtol base (line ++ c :: rest) = strtol base line := by
  have hsigned : signedPart (line ++ c :: rest) = signedPart line ++ c :: rest := by
    rw [signedPart, hblanks,
      List.drop_append_of_le_length (List.takeWhile_prefix isSpace).length_le]
    rfl
  have hsign : signLength (signedPart line ++ c :: rest) = signLength (signedPart line) := by
    cases signedPart line with
    | nil => exact if_neg h.sign
    | cons d more => rfl
  have hnegative : isNegative (signedPart line ++ c :: rest) = isNegative (signedPart line) := by
    cases signedPart line with
    | nil => exact beq_eq_false_iff_ne.mpr fun hminus => h.sign (.inr hminus)
    | cons d more => rfl
  have hunsigned : unsignedPart (line ++ c :: rest) = unsignedPart line ++ c :: rest := by
    rw [unsignedPart, hsigned, hsign, List.drop_append_of_le_length (signLength_le _)]
    rfl
  have hdigits : digitsPart base (line ++ c :: rest) = digitsPart base line := by
    rw [digitsPart, hunsigned, h.hexMarkLength_append,
      List.drop_append_of_le_length (hexMarkLength_le _ _), takeWhile_append_of_stop _ _ h.digit]
    rfl
  rw [strtol_eq_parts, strtol_eq_parts, hdigits, hsigned, hsign, hnegative, hunsigned,
    h.hexMarkLength_append, hblanks]

theorem strtol_append_nul (hnul : isDigitOf base charNul = false) (s rest : Bytes) :
    strtol base (s ++ charNul :: rest) = strtol base s := by
  have hends : EndsNumber base charNul := ⟨hnul, by decide, by decide, by decide⟩
  apply hends.strtol_append
  exact takeWhile_append_of_stop s rest (by decide)

theorem strtol_cString (hnul : isDigitOf base charNul = false) (s : Bytes) :
    strtol base (cString s) = strtol base s := by
  have hsplit : cString s ++ s.dropWhile (· != charNul) = s := List.takeWhile_append_dropWhile
  cases hrest : s.dropWhile (· != charNul) with
  | nil =>
      rw [hrest, List.append_nil] at hsplit
      rw [hsplit]
  | cons c rest =>
      have hc : c = charNul := by
        have hhead := List.head_dropWhile_not (· != charNul) (l := s) (by simp [hrest])
        simpa [hrest] using hhead
      rw [hrest, hc] at hsplit
      rw [← strtol_append_nul hnul (cString s) rest, hsplit]

end Strtol

end WorkflowModel
