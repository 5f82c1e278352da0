import WorkflowModel.Proof.HttpFragments
import Mathlib.Data.List.Induction

/-!
# Where the length of a message comes from

`content_length` is set by the last `Content-Length` header that starts with a digit, through `atoi`
and the conversions from `int` to `size_t`. `transfer_length` starts as "unknown", is set to 0 by a
status without a body, and takes the value of `content_length` when the header of a message that is
not chunked is complete. Both facts are kept by every step, so they hold after any calls.
-/

namespace WorkflowModel.Http

open WorkflowModel Resume

def intMax : Nat := 2147483647

/-- The lines that `__match_message_header` takes a length from. -/
def HeaderLine.isContentLength (line : HeaderLine) : Bool :=
  strcaseEq line.name (bytesOf "Content-Length") && line.value.head?.any isDigit

/-- The number that the leading digits of a value denote, before any conversion. -/
def numeralOf (value : Bytes) : Nat := digitsValue 10 (value.takeWhile isDigit)

/-- Each `Content-Length` value that has been parsed fits an `int`. -/
def ContentLengthsBounded (p : HttpParser) : Prop :=
  ∀ line ∈ p.headerList, line.isContentLength → numeralOf line.value ≤ intMax

instance (p : HttpParser) : Decidable (ContentLengthsBounded p) :=
  inferInstanceAs (Decidable (∀ line ∈ p.headerList, _))

theorem isDigitOf_ten (c : UInt8) : isDigitOf 10 c = isDigit c := by
  have hvalue := c.toNat_lt
  simp only [isDigitOf, isDigit, digitValue, UInt8.le_iff_toNat_le, UInt8.reduceToNat,
    ← Bool.decide_and]
  split_ifs <;> simp only [decide_eq_decide] <;> omega

theorem plain_of_isDigitOf {base : Nat} {c : UInt8} (hbase : base ≤ 36)
    (h : isDigitOf base c = true) : isSpace c = false ∧ c ≠ 43 ∧ c ≠ 45 := by
  have hlow : 48 ≤ c.toNat := by
    rw [isDigitOf, decide_eq_true_eq] at h
    by_contra hlt
    simp only [digitValue, UInt8.le_iff_toNat_le, UInt8.reduceToNat] at h
    split_ifs at h <;> omega
  have hne : ∀ d : UInt8, d.toNat < 48 → c ≠ d := by
    rintro d hd rfl
    omega
  refine ⟨?_, hne 43 (by decide), hne 45 (by decide)⟩
  simp only [isSpace, Bool.or_eq_false_iff, beq_eq_false_iff_ne, Bool.and_eq_false_iff,
    decide_eq_false_iff_not, UInt8.le_iff_toNat_le, UInt8.reduceToNat]
  exact ⟨hne 32 (by decide), Or.inr (by omega)⟩

/-- A string that starts with a digit has no blanks and no sign before its number. -/
theorem strtol_of_isDigitOf {base : Nat} {s : Bytes} (hbase : base ≤ 36)
    (h : s.head?.any (isDigitOf base)) (hmark : hexMarkLength base s = 0) :
    (strtol base s).1 = min longMax (digitsValue base (s.takeWhile (isDigitOf base))) := by
  cases s with
  | nil => simp at h
  | cons c rest =>
      have hdigit : isDigitOf base c = true := by simpa using h
      obtain ⟨hspace, hplus, hminus⟩ := plain_of_isDigitOf hbase hdigit
      have hblanks : (c :: rest).takeWhile isSpace = [] := by simp [hspace]
      have hne : (c :: rest).takeWhile (isDigitOf base) ≠ [] := by simp [hdigit]
      have hsign : signLength (c :: rest) = 0 := by simp [signLength, hplus, hminus]
      have hnegative : isNegative (c :: rest) = false := by simp [isNegative, hminus]
      simp only [strtol, hblanks, List.length_nil, List.drop_zero, hsign, hmark, hne, ↓reduceIte,
        hnegative, Bool.false_eq_true]

theorem strtol_of_digit {value : Bytes} (h : value.head?.any isDigit) :
    (strtol 10 value).1 = min longMax (numeralOf value) := by
  have hdigit : isDigitOf 10 = isDigit := funext isDigitOf_ten
  have hmark : hexMarkLength 10 value = 0 := by
    unfold hexMarkLength
    split <;> simp
  rw [strtol_of_isDigitOf (by decide) (by rw [hdigit]; exact h) hmark, hdigit]
  rfl

theorem sizeOfInt_atoi_of_le {value : Bytes} (h : value.head?.any isDigit)
    (hle : numeralOf value ≤ intMax) : sizeOfInt (atoi value) = numeralOf value := by
  unfold intMax at hle
  rw [atoi, strtol_of_digit h]
  have hmin : min longMax (numeralOf value : Int) = numeralOf value := by
    apply min_eq_right
    simp only [longMax]
    omega
  have hint : intOfLong (numeralOf value : Int) = numeralOf value := by
    apply Int.bmod_eq_of_le <;> omega
  rw [hmin, hint, sizeOfInt, sizeModulus]
  omega

theorem sizeOfInt_atoi_range (value : Bytes) :
    sizeOfInt (atoi value) ≤ intMax ∨
      (sizeModulus - 2147483648 ≤ sizeOfInt (atoi value) ∧ sizeOfInt (atoi value) < sizeModulus) := by
  rw [atoi]
  have hlow := Int.le_bmod (x := (strtol 10 value).1) (m := 2 ^ 32) (by decide)
  have hhigh := Int.bmod_lt (x := (strtol 10 value).1) (m := 2 ^ 32) (by decide)
  unfold intOfLong sizeOfInt sizeModulus intMax
  generalize Int.bmod (strtol 10 value).1 (2 ^ 32) = v at hlow hhigh ⊢
  omega

/-- `content_length` after the headers `lines`, from its value at the start. -/
def contentLengthAfter (start : Nat) (lines : List HeaderLine) : Nat :=
  lines.foldl (fun length line =>
    if line.isContentLength then sizeOfInt (atoi line.value) else length) start

theorem contentLengthAfter_append (start : Nat) (lines : List HeaderLine) (line : HeaderLine) :
    contentLengthAfter start (lines ++ [line]) =
      if line.isContentLength then sizeOfInt (atoi line.value)
      else contentLengthAfter start lines := by
  simp [contentLengthAfter]

theorem contentLengthAfter_bounded {start : Nat} {lines : List HeaderLine}
    (hstart : start = sizeMax ∨ start ≤ intMax)
    (h : ∀ line ∈ lines, line.isContentLength → numeralOf line.value ≤ intMax) :
    contentLengthAfter start lines = sizeMax ∨ contentLengthAfter start lines ≤ intMax := by
  induction lines using List.reverseRecOn with
  | nil => exact hstart
  | append_singleton lines line ih =>
      rw [contentLengthAfter_append]
      split_ifs with hline
      · have hle := h line (by simp) hline
        have hdigit : line.value.head?.any isDigit := by
          simp only [HeaderLine.isContentLength, Bool.and_eq_true] at hline
          exact hline.2
        rw [sizeOfInt_atoi_of_le hdigit hle]
        exact Or.inr hle
      · exact ih fun l hl => h l (by simp [hl])

def HttpParser.bodiless (zeroBody : Bool) (p : HttpParser) : Bool :=
  zeroBody || p.code.any hasNoBody

structure HeaderLengths (isResp zeroBody : Bool) (p : HttpParser) : Prop where
  content : p.contentLength = contentLengthAfter (if isResp then sizeMax else 0) p.headerList
  transfer : p.transferLength = if p.bodiless zeroBody then 0 else sizeMax
  fresh : p.headerState = .startLine → p.code = none

/-- The lengths once the header is complete and `startBody` has run. -/
structure BodyLengths (isResp zeroBody : Bool) (p : HttpParser) : Prop where
  content : p.contentLength = contentLengthAfter (if isResp then sizeMax else 0) p.headerList
  transfer : p.transferLength = if p.bodiless zeroBody then 0
    else if p.chunked then sizeMax else p.contentLength

section Lengths

variable {isResp zeroBody : Bool} {p q : HttpParser}

/-- A stored header gives its name and value back, since both are short. -/
theorem name_value_of_addHeader {name value : Bytes} (hname : name.length < 2 ^ 31)
    (hvalue : value.length < 2 ^ 31) :
    ∃ line : HeaderLine, (httpParserAddHeader name value p).headerList = p.headerList ++ [line] ∧
      line.name = name ∧ line.value = value := by
  have hint : ∀ n : Nat, n < 2 ^ 31 → (intOfLong n).toNat = n := by
    intro n hn
    have hn' : intOfLong (n : Int) = n := by
      apply Int.bmod_eq_of_le <;> omega
    rw [hn']
    rfl
  refine ⟨_, rfl, ?_, ?_⟩
  · simp [HeaderLine.name, hint _ hname]
  · have hdrop : (name ++ [charColon, charSpace] ++ value ++ [charCr, charLf]).drop (name.length + 2)
        = value ++ [charCr, charLf] := by
      rw [List.append_assoc (name ++ [charColon, charSpace])]
      exact List.drop_left' (by simp)
    rw [HeaderLine.value, hint _ hname, hint _ hvalue, hdrop]
    simp

/-- The headers that `__match_message_header` acts on, before it stores them. -/
def actOnHeader (name value : Bytes) (p : HttpParser) : HttpParser :=
  match name.length with
  | 6 => matchConnection name value (matchExpect name value p)
  | 10 => matchConnection name value p
  | 14 => matchContentLength name value p
  | 17 => matchTransferEncoding name value p
  | _ => p

theorem matchMessageHeader_eq (name value : Bytes) :
    matchMessageHeader name value p = httpParserAddHeader name value (actOnHeader name value p) := rfl

theorem actOnHeader_lengths (name value : Bytes) :
    (actOnHeader name value p).headerList = p.headerList ∧
    (actOnHeader name value p).transferLength = p.transferLength ∧
    (actOnHeader name value p).code = p.code ∧
    (actOnHeader name value p).contentLength
      = if strcaseEq name (bytesOf "Content-Length") && value.head?.any isDigit then
          sizeOfInt (atoi value) else p.contentLength := by
  have hskip : name.length ≠ 14 → strcaseEq name (bytesOf "Content-Length") = false := by
    intro hne
    by_contra heq
    rw [Bool.not_eq_false, strcaseEq, beq_iff_eq] at heq
    have hlen := congrArg List.length heq
    simp only [List.length_map] at hlen
    exact hne (hlen.trans (by decide))
  unfold actOnHeader
  split
  · rw [hskip (by omega)]
    unfold matchConnection matchExpect
    split_ifs <;> first | exact ⟨rfl, rfl, rfl, rfl⟩ | contradiction
  · rw [hskip (by omega)]
    unfold matchConnection
    split_ifs <;> first | exact ⟨rfl, rfl, rfl, rfl⟩ | contradiction
  · unfold matchContentLength
    split_ifs <;> exact ⟨rfl, rfl, rfl, rfl⟩
  · rw [hskip (by omega)]
    unfold matchTransferEncoding
    split_ifs <;> first | exact ⟨rfl, rfl, rfl, rfl⟩ | contradiction
  · rename_i hne _
    rw [hskip hne]
    exact ⟨rfl, rfl, rfl, rfl⟩

theorem matchMessageHeader_lengths {name value : Bytes} (hname : name.length < 2 ^ 31)
    (hvalue : value.length < 2 ^ 31) :
    ∃ line : HeaderLine, (matchMessageHeader name value p).headerList = p.headerList ++ [line] ∧
      (matchMessageHeader name value p).contentLength
        = (if line.isContentLength then sizeOfInt (atoi line.value) else p.contentLength) ∧
      (matchMessageHeader name value p).transferLength = p.transferLength ∧
      (matchMessageHeader name value p).code = p.code := by
  obtain ⟨hlist, htransfer, hcode, hcontent⟩ := actOnHeader_lengths (p := p) name value
  obtain ⟨line, hline, hlname, hlvalue⟩ :=
    name_value_of_addHeader (p := actOnHeader name value p) hname hvalue
  refine ⟨line, ?_, ?_, htransfer, hcode⟩
  · rw [matchMessageHeader_eq, hline, hlist]
  · rw [HeaderLine.isContentLength, hlname, hlvalue]
    exact hcontent

theorem lengths_of_value {l content rest : Bytes} (h : valueRound [] l = .value content rest) :
    p.name.length < 2 ^ 31 ∧ content.length < 2 ^ 31 := by
  constructor
  · have hname : p.name.length ≤ p.namebuf.toList.length := (List.takeWhile_prefix _).length_le
    rw [Vector.length_toList] at hname
    exact lt_of_le_of_lt hname (by decide)
  · obtain ⟨blanks, body, -, -, -, -, rfl, hlt, -⟩ := valueRound_eq_value_iff.mp h
    have htrim : (trimRight body).length ≤ body.length := by
      have hsuffix := (List.dropWhile_suffix isBlank (l := body.reverse)).length_le
      rwa [List.length_reverse, ← List.length_reverse] at hsuffix
    exact lt_of_le_of_lt htrim (lt_trans hlt (by decide))

theorem parseStartLine_lengths {l : Bytes} (h : HeaderLengths isResp zeroBody p)
    (hstate : p.headerState = .startLine) : HeaderLengths isResp zeroBody (parseStartLine l p).2 := by
  have hcode := h.fresh hstate
  have htransfer : p.transferLength = if zeroBody then 0 else sizeMax := by
    rw [h.transfer, HttpParser.bodiless, hcode]
    simp
  unfold parseStartLine
  split
  · exact ⟨h.content, h.transfer, h.fresh⟩
  · split
    · exact h
    · exact h
    · split
      · exact h
      · rename_i method uri version _
        dsimp only
        split
        · refine ⟨h.content, ?_, by simp⟩
          simp only [matchStatusLine, htransfer, HttpParser.bodiless, Option.any_some]
          cases zeroBody <;> simp
        · refine ⟨h.content, ?_, by simp⟩
          simp [matchRequestLine, htransfer, HttpParser.bodiless, hcode]

theorem parseHeaderStep_lengths (l : Bytes) (h : HeaderLengths isResp zeroBody p)
    (hp : HeaderLive p) : HeaderLengths isResp zeroBody (parseHeaderStep p l).2 := by
  cases hstate : p.headerState with
  | headerComplete => exact absurd hstate hp
  | startLine =>
      rw [parseHeaderStep_startLine l hstate]
      exact parseStartLine_lengths h hstate
  | headerValue =>
      rw [parseHeaderStep_headerValue l hstate]
      rcases parseHeaderValue_cases l p with ⟨content, rest, hround, heq⟩ | ⟨-, heq⟩ | ⟨-, heq⟩
      · have hshort := lengths_of_value (p := p) hround
        obtain ⟨line, hlist, hcontent, htransfer, hcode⟩ :=
          matchMessageHeader_lengths (p := p) hshort.1 hshort.2
        rw [heq]
        refine ⟨?_, ?_, by simp⟩
        · simp only [hlist, hcontent]
          rw [contentLengthAfter_append, h.content]
        · simp only [htransfer, HttpParser.bodiless, hcode]
          exact h.transfer
      · rw [heq]
        exact h
      · rw [heq]
        exact h
  | headerName =>
      rw [parseHeaderStep_nameStep l (by simp [hstate]) (by simp [hstate])]
      rcases nameInput_cases p.namebuf l with hcrlf | ⟨hcrlf, body, rest, rfl, hlt, hcolon, hnul⟩ |
        ⟨hcrlf, hcode⟩ | ⟨hcrlf, hcode⟩
      · rw [nameStep_of_crlf hcrlf]
        exact ⟨h.content, h.transfer, by simp⟩
      · obtain ⟨namebuf, -, heq⟩ := nameStep_of_name p hcrlf hlt hcolon hnul
        rw [heq]
        exact ⟨h.content, h.transfer, by simp⟩
      · rw [nameStep_of_ne_one hstate hcrlf (by simp [hcode])]
        exact ⟨h.content, h.transfer, h.fresh⟩
      · rw [nameStep_of_ne_one hstate hcrlf (by simp [hcode])]
        exact ⟨h.content, h.transfer, h.fresh⟩

theorem header_run_lengths {message : Bytes} (hp : headerMachine.Ready HeaderLive message p)
    (h : HeaderLengths isResp zeroBody p) :
    HeaderLengths isResp zeroBody (headerMachine.run message p).2 :=
  Machine.run_preserves headerMachine_resumable
    (fun q l hq hlive => parseHeaderStep_lengths l hq hlive) hp h

theorem startBody_lengths (h : HeaderLengths isResp zeroBody p) :
    BodyLengths isResp zeroBody (startBody p) := by
  have htransfer := h.transfer
  have hne : (0 : Nat) ≠ sizeMax := by decide
  unfold startBody
  split_ifs with hchunked hlength
  · refine ⟨h.content, ?_⟩
    simp [htransfer, HttpParser.bodiless, hchunked]
  · refine ⟨h.content, ?_⟩
    rw [hlength] at htransfer
    have hbody : p.bodiless zeroBody = false := by
      by_contra hbodiless
      rw [Bool.not_eq_false] at hbodiless
      rw [hbodiless, if_pos rfl] at htransfer
      exact hne htransfer.symm
    have hbody' : zeroBody = false ∧ p.code.any hasNoBody = false := by
      simpa [HttpParser.bodiless] using hbody
    simp [HttpParser.bodiless, hbody', hchunked]
  · refine ⟨h.content, ?_⟩
    have hbodiless : p.bodiless zeroBody = true := by
      by_contra hbody
      rw [if_neg hbody] at htransfer
      exact hlength htransfer
    rw [htransfer, if_pos hbodiless, if_pos hbodiless]

def CallLengths (isResp zeroBody : Bool) (p : HttpParser) : Prop :=
  (HeaderLive p → HeaderLengths isResp zeroBody p) ∧
    (p.headerState = .headerComplete → BodyLengths isResp zeroBody p)

theorem bodyEnd_lengths (hp : BodyReady p) (h : BodyLengths isResp zeroBody p) :
    BodyLengths isResp zeroBody (bodyEnd p).2.2 := by
  obtain ⟨state, offset, hframe⟩ := bodyEnd_frame hp
  rw [hframe]
  exact ⟨h.content, h.transfer⟩

theorem callEnd_lengths (hp : CallReady p) (h : CallLengths isResp zeroBody p)
    (hcode : 0 ≤ (callEnd p).1) : CallLengths isResp zeroBody (callEnd p).2.2 := by
  by_cases hlive : HeaderLive p
  · have hready := hp.ready hlive
    have hrunLengths := header_run_lengths hready (h.1 hlive)
    rcases header_run_cases hready with hrun | ⟨hrun, hcomplete⟩ | hrun
    · have hnext := Machine.ready_run_of_more headerMachine_resumable hready hrun
      rw [callEnd_of_more hlive hrun]
      exact ⟨fun _ => hrunLengths, fun hdone => absurd hdone hnext.1⟩
    · have hbody := startBody_ready (header_run_inside hp hlive hrun)
      have hstate := (bodyEnd_headerState hbody).trans (startBody_headerState.trans hcomplete)
      rw [callEnd_of_stop hlive hrun]
      exact ⟨fun hlive' => absurd hstate hlive',
        fun _ => bodyEnd_lengths hbody (startBody_lengths hrunLengths)⟩
    · simp [callEnd_of_bad hlive hrun] at hcode
  · have hcomplete : p.headerState = .headerComplete := not_not.mp hlive
    have hstate := (bodyEnd_headerState (hp.body hcomplete)).trans hcomplete
    rw [callEnd_of_body hcomplete]
    exact ⟨fun hlive' => absurd hstate hlive',
      fun _ => bodyEnd_lengths (hp.body hcomplete) (h.2 hcomplete)⟩

end Lengths

end WorkflowModel.Http
