import WorkflowModel.Util.StringUtil

/-!
# Encoded URLs read back

`urlDecode` reads a text from the front. The loop of the source computes the same in one buffer, because it
writes behind itself: what it has yet to read is never what it has overwritten. The encoders write a plain character
or an escape for each byte, and the decoder takes either one back without regard to what follows.
-/

namespace WorkflowModel.Util.StringUtil

open URIParser

theorem forall_byte {P : UInt8 → Prop} (h : ∀ n < 256, P (UInt8.ofNat n)) (c : UInt8) : P c := by
  have hc := h c.toNat c.toNat_lt
  rwa [UInt8.ofNat_toNat] at hc

def EscapeAhead (text : Bytes) : Prop :=
  ∃ high low rest, text = charPercent :: high :: low :: rest ∧ isXDigit high = true ∧ isXDigit low = true

theorem urlDecode_escape {high low : UInt8} (hhigh : isXDigit high = true) (hlow : isXDigit low = true)
    (rest : Bytes) :
    urlDecode (charPercent :: high :: low :: rest)
      = (digitValue high * 16 + digitValue low).toUInt8 :: urlDecode rest := by
  rw [urlDecode, if_pos ⟨rfl, hhigh, hlow⟩]

theorem urlDecode_plain {c : UInt8} {rest : Bytes} (h : ¬EscapeAhead (c :: rest)) :
    urlDecode (c :: rest) = (if c = charPlus then charSpace else c) :: urlDecode rest := by
  match rest with
  | [] => rfl
  | [_] => rfl
  | high :: low :: rest =>
      rw [urlDecode, if_neg]
      rintro ⟨rfl, hhigh, hlow⟩
      exact h ⟨high, low, rest, rfl, hhigh, hlow⟩

theorem htoi_of_isXDigit : ∀ high low : UInt8, isXDigit high = true → isXDigit low = true →
    htoi high low = (digitValue high * 16 + digitValue low).toUInt8 := by
  have hvalue : ∀ c : UInt8, isXDigit c = true → hexValue c = digitValue c ∧ digitValue c < 16 :=
    forall_byte (by decide +kernel)
  intro high low hhigh hlow
  obtain ⟨hh, hh16⟩ := hvalue high hhigh
  obtain ⟨hl, hl16⟩ := hvalue low hlow
  unfold htoi
  rw [hh, hl]
  congr 1
  omega

def Decoding.written (x : Decoding) : Bytes := x.buf.take x.dest

def Decoding.ahead (x : Decoding) : Bytes := (x.buf.drop x.data).take x.len

/-- The cursors in their order, with the NUL behind the text. -/
structure Decoding.Valid (x : Decoding) : Prop where
  dest_le_data : x.dest ≤ x.data
  end_lt : x.data + x.len < x.buf.length

theorem ahead_set (buf : Bytes) (c : UInt8) {dest data : Nat} (h : dest < data) (len : Nat) :
    ((buf.set dest c).drop data).take len = (buf.drop data).take len := by
  rw [List.drop_set_of_lt h]

theorem written_set {buf : Bytes} {dest : Nat} (h : dest < buf.length) (c : UInt8) :
    (buf.set dest c).take (dest + 1) = buf.take dest ++ [c] := by
  rw [List.take_add_one, List.take_set_of_le (Nat.le_refl dest), List.getElem?_set_self h]
  rfl

theorem take_drop_succ {buf : Bytes} {data : Nat} (h : data < buf.length) (len : Nat) :
    (buf.drop data).take (len + 1) = strAt buf data :: (buf.drop (data + 1)).take len := by
  unfold strAt
  rw [List.drop_eq_getElem_cons h, List.take_succ_cons, List.getD_eq_getElem?_getD, List.getElem?_eq_getElem h,
    Option.getD_some]

theorem Decoding.ahead_of_succ {x : Decoding} (hx : x.Valid) {len : Nat} (hlen : x.len = len + 1) :
    x.ahead = strAt x.buf x.data :: (x.buf.drop (x.data + 1)).take len := by
  have hend := hx.end_lt
  unfold Decoding.ahead
  rw [hlen, take_drop_succ (by omega)]

theorem Decoding.ahead_of_three {x : Decoding} (hx : x.Valid) {len : Nat} (hlen : x.len = len + 3) :
    x.ahead = strAt x.buf x.data :: strAt x.buf (x.data + 1) :: strAt x.buf (x.data + 2)
      :: (x.buf.drop (x.data + 3)).take len := by
  have hend := hx.end_lt
  rw [ahead_of_succ hx hlen, take_drop_succ (by omega), take_drop_succ (by omega)]

theorem Decoding.length_ahead {x : Decoding} (hx : x.Valid) : x.ahead.length = x.len := by
  have hend := hx.end_lt
  unfold Decoding.ahead
  rw [List.length_take, List.length_drop]
  omega

def Decoding.AtEscape (x : Decoding) : Prop :=
  strAt x.buf x.data = charPercent ∧ 2 ≤ x.len - 1 ∧ isXDigit (strAt x.buf (x.data + 1)) = true
    ∧ isXDigit (strAt x.buf (x.data + 2)) = true

theorem Decoding.round_of_atEscape {x : Decoding} (h : x.AtEscape) :
    x.round =
      { buf := x.buf.set x.dest (htoi (strAt x.buf (x.data + 1)) (strAt x.buf (x.data + 2))),
        data := x.data + 3, dest := x.dest + 1, len := x.len - 3 } :=
  if_pos h

theorem Decoding.round_of_not_atEscape {x : Decoding} (h : ¬x.AtEscape) :
    x.round =
      { buf := x.buf.set x.dest (if strAt x.buf x.data = charPlus then charSpace else strAt x.buf x.data),
        data := x.data + 1, dest := x.dest + 1, len := x.len - 1 } :=
  if_neg h

theorem Decoding.atEscape_of_escapeAhead {x : Decoding} (hx : x.Valid) (h : EscapeAhead x.ahead) :
    x.AtEscape := by
  obtain ⟨high, low, rest, htext, hhigh, hlow⟩ := h
  have hlength := length_ahead hx
  rw [htext] at hlength
  have hthree : x.len = rest.length + 3 := hlength.symm
  rw [ahead_of_three hx hthree] at htext
  obtain ⟨hc, htext⟩ := List.cons.inj htext
  obtain ⟨hh, htext⟩ := List.cons.inj htext
  obtain ⟨hl, -⟩ := List.cons.inj htext
  exact ⟨hc, by omega, hh ▸ hhigh, hl ▸ hlow⟩

theorem Decoding.valid_round {x : Decoding} (hx : x.Valid) (hlen : x.len ≠ 0) : x.round.Valid := by
  obtain ⟨hdest, hend⟩ := hx
  by_cases hescape : x.AtEscape
  · have htwo := hescape.2.1
    rw [round_of_atEscape hescape]
    constructor <;> simp only [List.length_set] <;> omega
  · rw [round_of_not_atEscape hescape]
    constructor <;> simp only [List.length_set] <;> omega

/-- A round decodes one character of what lies ahead. -/
theorem Decoding.written_round {x : Decoding} (hx : x.Valid) (hlen : x.len ≠ 0) :
    x.round.written ++ urlDecode x.round.ahead = x.written ++ urlDecode x.ahead := by
  have hdest := hx.dest_le_data
  have hbuf : x.dest < x.buf.length := by
    have hend := hx.end_lt
    omega
  by_cases hescape : x.AtEscape
  · obtain ⟨hpercent, htwo, hhigh, hlow⟩ := id hescape
    obtain ⟨len, hthree⟩ : ∃ len, x.len = len + 3 := ⟨x.len - 3, by omega⟩
    have hround : x.round.ahead = (x.buf.drop (x.data + 3)).take len := by
      rw [round_of_atEscape hescape, hthree]
      exact ahead_set x.buf _ (show x.dest < x.data + 3 by omega) len
    have hahead := ahead_of_three hx hthree
    rw [hpercent] at hahead
    rw [hahead, hround, urlDecode_escape hhigh hlow, ← htoi_of_isXDigit _ _ hhigh hlow, List.append_cons,
      round_of_atEscape hescape]
    exact congrArg (· ++ _) (written_set hbuf _)
  · obtain ⟨len, hone⟩ := Nat.exists_eq_succ_of_ne_zero hlen
    have hround : x.round.ahead = (x.buf.drop (x.data + 1)).take len := by
      rw [round_of_not_atEscape hescape, hone]
      exact ahead_set x.buf _ (show x.dest < x.data + 1 by omega) len
    have hplain : ¬EscapeAhead x.ahead := fun h => hescape (atEscape_of_escapeAhead hx h)
    rw [ahead_of_succ hx hone] at hplain ⊢
    rw [hround, urlDecode_plain hplain, List.append_cons, round_of_not_atEscape hescape]
    exact congrArg (· ++ _) (written_set hbuf _)

theorem Decoding.written_loop {x : Decoding} (hx : x.Valid) :
    x.loop.written = x.written ++ urlDecode x.ahead := by
  induction x using Decoding.loop.induct with
  | case1 x hlen =>
      have hahead : x.ahead = [] := by
        unfold Decoding.ahead
        rw [hlen, List.take_zero]
      rw [Decoding.loop, dif_pos hlen, hahead, urlDecode, List.append_nil]
  | case2 x hlen ih =>
      rw [Decoding.loop, dif_neg hlen, ih (valid_round hx hlen)]
      exact written_round hx hlen

theorem urlDecodeString_eq (str : Bytes) : urlDecodeString str = urlDecode str := by
  unfold urlDecodeString urlDecodeBuffer
  split_ifs with hempty
  · rw [hempty, urlDecode]
  · let x : Decoding := { buf := str ++ [charNul], data := 0, dest := 0, len := str.length }
    have hx : x.Valid := ⟨Nat.le_refl 0, by simp [x]⟩
    have hahead : x.ahead = str := by
      simp [x, Decoding.ahead]
    calc (x.loop.buf.set x.loop.dest charNul).take x.loop.dest
        = x.loop.written := List.take_set_of_le (Nat.le_refl _)
      _ = x.written ++ urlDecode x.ahead := Decoding.written_loop hx
      _ = urlDecode str := by rw [hahead]; rfl

/-- What one round of an encoder appends is decoded as the byte it is for, whatever comes behind it. -/
theorem urlDecode_encodeByte {keep : Bytes} (hpercent : charPercent ∉ keep) (hplus : charPlus ∉ keep)
    (c : UInt8) (rest : Bytes) : urlDecode (encodeByte keep c ++ rest) = c :: urlDecode rest := by
  unfold encodeByte
  split_ifs with hspace hkeep
  · rw [List.singleton_append, urlDecode_plain, if_pos rfl, hspace]
    rintro ⟨_, _, _, htext, _⟩
    cases htext
  · have hne : c ≠ charPercent ∧ c ≠ charPlus := by
      obtain halnum | hmem := hkeep
      · constructor <;> (rintro rfl; revert halnum; decide)
      · exact ⟨fun h => hpercent (h ▸ hmem), fun h => hplus (h ▸ hmem)⟩
    rw [List.singleton_append, urlDecode_plain, if_neg hne.2]
    rintro ⟨_, _, _, htext, _⟩
    exact hne.1 (List.cons.inj htext).1
  · have hdigits : ∀ c : UInt8, isXDigit (itoh (c.toNat >>> 4)) = true ∧ isXDigit (itoh (c.toNat % 16)) = true
        ∧ (digitValue (itoh (c.toNat >>> 4)) * 16 + digitValue (itoh (c.toNat % 16))).toUInt8 = c :=
      forall_byte (by decide +kernel)
    obtain ⟨hhigh, hlow, hvalue⟩ := hdigits c
    rw [List.cons_append, List.cons_append, List.singleton_append, urlDecode_escape hhigh hlow, hvalue]

theorem urlDecode_encodeWith {keep : Bytes} (hpercent : charPercent ∉ keep) (hplus : charPlus ∉ keep)
    (str : Bytes) : urlDecode (encodeWith keep str) = str := by
  rw [encodeWith_eq_flatMap]
  induction str with
  | nil => rfl
  | cons c str ih => rw [List.flatMap_cons, urlDecode_encodeByte hpercent hplus, ih]

/-- The characters `url_encode_component` writes. -/
def IsComponentChar (c : UInt8) : Prop :=
  isAlpha c = true ∨ isDigit c = true ∨ c = charPlus ∨ c = charPercent ∨ c ∈ marks

theorem isComponentChar_of_mem_encodeByte {c d : UInt8} (h : d ∈ encodeByte marks c) : IsComponentChar d := by
  have hitoh : ∀ n < 16, isAlpha (itoh n) = true ∨ isDigit (itoh n) = true := by decide
  have hdigit : ∀ {n : Nat}, n < 16 → IsComponentChar (itoh n) := by
    intro n hn
    obtain halpha | hdigit := hitoh n hn
    · exact .inl halpha
    · exact .inr (.inl hdigit)
  unfold encodeByte at h
  split_ifs at h with hspace hkeep
  · exact .inr (.inr (.inl (List.mem_singleton.mp h)))
  · obtain rfl := List.mem_singleton.mp h
    obtain halnum | hmem := hkeep
    · obtain halpha | hdigit := Bool.or_eq_true_iff.mp halnum
      · exact .inl halpha
      · exact .inr (.inl hdigit)
    · exact .inr (.inr (.inr (.inr hmem)))
  · have hc := c.toNat_lt
    obtain rfl | rfl | rfl : d = charPercent ∨ d = itoh (c.toNat >>> 4) ∨ d = itoh (c.toNat % 16) := by
      simpa using h
    · exact .inr (.inr (.inr (.inl rfl)))
    · apply hdigit
      rw [Nat.shiftRight_eq_div_pow]
      omega
    · exact hdigit (Nat.mod_lt _ (by decide))

/-- Decoding undoes both encoders, and a component is written in a small alphabet. -/
theorem urlDecodeString_urlEncode (str : Bytes) :
    urlDecodeString (urlEncode str) = str ∧ urlDecodeString (urlEncodeComponent str) = str
      ∧ ∀ c ∈ urlEncodeComponent str, IsComponentChar c := by
  refine ⟨?_, ?_, ?_⟩
  · rw [urlDecodeString_eq]
    exact urlDecode_encodeWith (by decide) (by decide) str
  · rw [urlDecodeString_eq]
    exact urlDecode_encodeWith (by decide) (by decide) str
  · intro c hc
    unfold urlEncodeComponent at hc
    rw [encodeWith_eq_flatMap] at hc
    obtain ⟨d, -, hmem⟩ := List.mem_flatMap.mp hc
    exact isComponentChar_of_mem_encodeByte hmem

example : urlEncodeComponent (bytesOf "a+b c=%") = bytesOf "a%2Bb+c%3D%25" := by decide

end WorkflowModel.Util.StringUtil
