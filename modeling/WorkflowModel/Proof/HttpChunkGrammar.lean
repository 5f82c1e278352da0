import WorkflowModel.Proof.HttpChunkTrace

/-!
# Chunked bodies and their grammar

The grammar of a chunked body against what `__parse_chunk` accepts. The size line goes through
`strtol`, which takes blanks, a sign or a `0x` before the digits and does not care what comes behind
them; and the two bytes behind the data of a chunk are skipped unread. A body conforms exactly when
none of this freedom was used.
-/

namespace WorkflowModel.Http

open WorkflowModel Resume

def charSemicolon : UInt8 := 59

/-- `1*HEXDIG [ ";" extension ]`, without the line end. -/
def SizeLine (line : Bytes) (size : Nat) : Prop :=
  ∃ digits extension, line = digits ++ extension ∧ digits ≠ [] ∧
    (∀ c ∈ digits, isDigitOf 16 c = true) ∧ digitsValue 16 digits = size ∧
    (extension = [] ∨ extension.head? = some charSemicolon) ∧ charCr ∉ extension

/-- Chunks with their data, a last chunk of size 0, trailer lines and an empty line. -/
inductive ChunkedBody : Bytes → Prop
  | chunk {line data rest : Bytes} (size : SizeLine line data.length) (nonempty : data ≠ [])
      (tail : ChunkedBody rest) : ChunkedBody (line ++ crlf ++ (data ++ crlf ++ rest))
  | last {line : Bytes} (trailers : List Bytes) (size : SizeLine line 0)
      (hlines : ∀ trailer ∈ trailers, trailer ≠ [] ∧ charCr ∉ trailer) :
      ChunkedBody (line ++ crlf ++ (trailers.flatMap (· ++ crlf) ++ crlf))

/-- A size line starts with a digit, and what follows the digits is an extension. -/
def PlainSizeLine (line : Bytes) : Prop :=
  line.head?.any (isDigitOf 16) = true ∧
    ∀ c ∈ (line.dropWhile (isDigitOf 16)).head?, c = charSemicolon

/-- A step that uses none of the freedom: its size line is plain, and what it skips behind the data is
a line end. -/
def Stepped.Plain : Stepped → Prop
  | .chunk c => PlainSizeLine c.line ∧ c.skipped = crlf
  | .last line => PlainSizeLine line
  | .trailer _ => True

instance (line : Bytes) : Decidable (PlainSizeLine line) :=
  inferInstanceAs (Decidable (_ ∧ _))

instance : DecidablePred Stepped.Plain
  | .chunk c => inferInstanceAs (Decidable (PlainSizeLine c.line ∧ c.skipped = crlf))
  | .last line => inferInstanceAs (Decidable (PlainSizeLine line))
  | .trailer _ => inferInstanceAs (Decidable True)

theorem sizeLine_iff {line : Bytes} {size : Nat} :
    SizeLine line size ↔ PlainSizeLine line ∧ charCr ∉ line ∧
      digitsValue 16 (line.takeWhile (isDigitOf 16)) = size := by
  constructor
  · rintro ⟨digits, extension, rfl, hne, hdigits, hvalue, hextension, hcr⟩
    have hstop : extension.takeWhile (isDigitOf 16) = [] ∧
        extension.dropWhile (isDigitOf 16) = extension := by
      rcases hextension with rfl | hhead
      · exact ⟨rfl, rfl⟩
      · cases extension with
        | nil => simp at hhead
        | cons c rest =>
            have hc : isDigitOf 16 c = false := by
              rw [List.head?_cons, Option.some.injEq] at hhead
              rw [hhead]
              decide
            simp [hc]
    have hall : digits.takeWhile (isDigitOf 16) = digits := List.takeWhile_eq_self_iff.mpr hdigits
    refine ⟨⟨?_, ?_⟩, ?_, ?_⟩
    · cases digits with
      | nil => exact absurd rfl hne
      | cons c rest => simpa using hdigits c (by simp)
    · rw [List.dropWhile_append_of_pos hdigits, hstop.2]
      intro c hc
      rcases hextension with rfl | hhead
      · simp at hc
      · rw [hhead, Option.mem_some_iff] at hc
        exact hc.symm
    · rw [List.mem_append, not_or]
      exact ⟨fun hmem => absurd (hdigits _ hmem) (by decide), hcr⟩
    · rw [List.takeWhile_append_of_pos hdigits, hstop.1, List.append_nil]
      exact hvalue
  · rintro ⟨⟨hhead, hnext⟩, hcr, hvalue⟩
    refine ⟨_, _, List.takeWhile_append_dropWhile.symm, ?_, ?_, hvalue, ?_, ?_⟩
    · cases line with
      | nil => simp at hhead
      | cons c rest =>
          have hc : isDigitOf 16 c = true := by simpa using hhead
          simp [hc]
    · exact fun c hc => List.mem_takeWhile_imp hc
    · cases hrest : line.dropWhile (isDigitOf 16) with
      | nil => exact Or.inl rfl
      | cons c rest =>
          rw [hrest] at hnext
          exact Or.inr (congrArg some (hnext c rfl))
    · exact fun hmem => hcr ((List.dropWhile_suffix _).mem hmem)

/-- There is no `0x` in a plain size line. -/
theorem PlainSizeLine.strtol_eq {line : Bytes} (h : PlainSizeLine line) :
    (strtol 16 line).1 = min longMax (digitsValue 16 (line.takeWhile (isDigitOf 16))) := by
  apply strtol_of_isDigitOf (by decide) h.1
  obtain ⟨hhead, hnext⟩ := h
  unfold hexMarkLength
  split
  · rename_i c x d rest
    rw [if_neg]
    rintro ⟨-, rfl, hx, -⟩
    have hnot : isDigitOf 16 x = false ∧ x ≠ charSemicolon := by
      unfold toLower at hx
      split_ifs at hx
      · obtain rfl : x = 88 := by
          calc x = x + 32 - 32 := (UInt8.add_sub_cancel x 32).symm
            _ = 88 := by rw [hx]; rfl
        decide
      · rw [hx]
        decide
    have hzero : isDigitOf 16 48 = true := by decide
    rw [List.dropWhile_cons_of_pos hzero, List.dropWhile_cons_of_neg (by simp [hnot.1])] at hnext
    exact hnot.2 (hnext x rfl)
  · rfl

theorem line_eq_of_append {line line' rest rest' : Bytes} (hline : charCr ∉ line)
    (hline' : charCr ∉ line') (h : line ++ crlf ++ rest = line' ++ crlf ++ rest') :
    line = line' ∧ rest = rest' := by
  have hcut : ∀ (l r : Bytes), charCr ∉ l →
      (l ++ crlf ++ r).takeWhile (· != charCr) = l := by
    intro l r hl
    rw [List.append_assoc, List.takeWhile_append_of_pos]
    · simp [crlf]
    · intro c hc
      have : c ≠ charCr := by
        rintro rfl
        exact hl hc
      simpa using this
  have hsame : line = line' := by
    calc line = (line ++ crlf ++ rest).takeWhile (· != charCr) := (hcut line rest hline).symm
      _ = (line' ++ crlf ++ rest').takeWhile (· != charCr) := by rw [h]
      _ = line' := hcut line' rest' hline'
  subst hsame
  exact ⟨rfl, List.append_cancel_left h⟩

section Bodies

variable {steps : List Stepped} {i j : Nat}

/-- Behind the last size line the steps are trailer lines. -/
theorem Path.trailers : ∀ {steps : List Stepped} {i : Nat},
    Path .trailerPart i steps .chunkComplete j →
      (∀ x ∈ steps, x.Plain) ∧ ∃ trailers : List Bytes,
        spelled steps = trailers.flatMap (· ++ crlf) ++ crlf ∧
        ∀ trailer ∈ trailers, trailer ≠ [] ∧ charCr ∉ trailer := by
  intro steps
  induction steps with
  | nil =>
      rintro i ⟨hstate, -⟩
      cases hstate
  | cons x steps ih =>
      rintro i ⟨u, hover, hpath⟩
      cases hover with
      | trailer hline hne =>
          rename_i line
          obtain ⟨hplain, trailers, hspelled, hlines⟩ := ih hpath
          refine ⟨List.forall_mem_cons.mpr ⟨trivial, hplain⟩, line :: trailers, ?_,
            List.forall_mem_cons.mpr ⟨⟨hne, hline⟩, hlines⟩⟩
          rw [spelled_cons, hspelled, List.flatMap_cons, List.append_assoc]
          rfl
      | finish =>
          -- nothing follows the empty line
          cases steps with
          | nil => exact ⟨List.forall_mem_cons.mpr ⟨trivial, by simp⟩, [], by
              simp [spelled, Stepped.bytes], by simp⟩
          | cons y steps =>
              obtain ⟨v, hover, -⟩ := hpath
              cases hover

theorem chunkedBody_of_plain : ∀ {steps : List Stepped} {i : Nat},
    Path .chunkData i steps .chunkComplete j → (∀ x ∈ steps, x.Plain) →
      ChunkedBody (spelled steps) := by
  intro steps
  induction steps with
  | nil =>
      rintro i ⟨hstate, -⟩
      cases hstate
  | cons x steps ih =>
      rintro i ⟨u, hover, hpath⟩ hplain
      obtain ⟨hx, hsteps⟩ := List.forall_mem_cons.mp hplain
      cases hover with
      | chunk haccepted hstart =>
          rename_i c
          have hsize : SizeLine c.line c.data.length := by
            refine sizeLine_iff.mpr ⟨hx.1, haccepted.line, ?_⟩
            have hvalue := hx.1.strtol_eq.symm.trans haccepted.size
            have hsmall := haccepted.small
            unfold chunkSizeMax httpChunkLineMax at hsmall
            unfold longMax at hvalue
            omega
          have hbody := ChunkedBody.chunk hsize haccepted.nonempty (ih hpath hsteps)
          rw [spelled_cons, Stepped.bytes, hx.2]
          simpa only [List.append_assoc] using hbody
      | last hline hdigits hzero =>
          rename_i line
          obtain ⟨-, trailers, hspelled, hlines⟩ := Path.trailers hpath
          have hsize : SizeLine line 0 := by
            refine sizeLine_iff.mpr ⟨hx, hline, ?_⟩
            have hvalue := (PlainSizeLine.strtol_eq hx).symm.trans hzero
            unfold longMax at hvalue
            omega
          rw [spelled_cons, hspelled]
          exact ChunkedBody.last trailers hsize hlines

/-- The grammar cuts the body where the parser does. -/
theorem plain_of_chunkedBody : ∀ {steps : List Stepped} {i : Nat},
    Path .chunkData i steps .chunkComplete j → ChunkedBody (spelled steps) →
      ∀ x ∈ steps, x.Plain := by
  intro steps
  induction steps with
  | nil =>
      rintro i ⟨hstate, -⟩
      cases hstate
  | cons x steps ih =>
      rintro i ⟨u, hover, hpath⟩ hbody
      rw [spelled_cons] at hbody
      generalize hbytes : x.bytes ++ spelled steps = body at hbody
      cases hover with
      | chunk haccepted hstart =>
          rename_i c
          rw [Stepped.bytes, List.append_assoc, List.append_assoc] at hbytes
          cases hbody with
          | last trailers size hlines =>
              obtain ⟨hplain, hcr, hvalue⟩ := sizeLine_iff.mp size
              obtain ⟨rfl, -⟩ := line_eq_of_append haccepted.line hcr hbytes
              have hzero := haccepted.size.symm.trans hplain.strtol_eq
              rw [hvalue] at hzero
              have hpositive := List.length_pos_iff.mpr haccepted.nonempty
              unfold longMax at hzero
              omega
          | chunk size hnonempty htail =>
              obtain ⟨hplain, hcr, hvalue⟩ := sizeLine_iff.mp size
              obtain ⟨rfl, hrest⟩ := line_eq_of_append haccepted.line hcr hbytes
              have hlength := haccepted.size.symm.trans hplain.strtol_eq
              rw [hvalue] at hlength
              have hsmall := haccepted.small
              unfold chunkSizeMax httpChunkLineMax at hsmall
              unfold longMax at hlength
              rw [List.append_assoc] at hrest
              obtain ⟨-, hrest⟩ := List.append_inj hrest (by omega)
              obtain ⟨hskipped, rfl⟩ := List.append_inj hrest (by rw [haccepted.skipped]; rfl)
              exact List.forall_mem_cons.mpr ⟨⟨hplain, hskipped⟩, ih hpath htail⟩
      | last hline hdigits hzero =>
          rename_i line
          rw [Stepped.bytes] at hbytes
          refine List.forall_mem_cons.mpr ⟨?_, (Path.trailers hpath).1⟩
          cases hbody with
          | last trailers size hlines =>
              obtain ⟨hplain, hcr, -⟩ := sizeLine_iff.mp size
              obtain ⟨rfl, -⟩ := line_eq_of_append hline hcr hbytes
              exact hplain
          | chunk size hnonempty htail =>
              obtain ⟨hplain, hcr, -⟩ := sizeLine_iff.mp size
              obtain ⟨rfl, -⟩ := line_eq_of_append hline hcr hbytes
              exact hplain

end Bodies

theorem not_chunkedBody_nil : ¬ ChunkedBody [] := by
  intro h
  generalize hnil : ([] : Bytes) = body at h
  cases h with
  | chunk size _ _ => simp [crlf] at hnil
  | last trailers size _ => simp [crlf] at hnil

theorem Finished.chunkedBody_iff {zeroBody : Bool} {stream : Bytes} {consumed : Nat}
    {steps : List Stepped} {p : HttpParser} (h : Finished zeroBody stream consumed steps p) :
    ChunkedBody ((stream.take consumed).drop p.headerOffset) ↔
      p.bodiless zeroBody = false ∧ ∀ x ∈ steps, x.Plain := by
  rw [← h.message, h.body]
  cases hbody : p.bodiless zeroBody with
  | true =>
      rw [h.bodiless hbody, spelled_nil]
      simp [not_chunkedBody_nil]
  | false =>
      have hpath := h.path hbody
      rw [and_iff_right rfl]
      exact ⟨plain_of_chunkedBody hpath, chunkedBody_of_plain hpath⟩

section Fresh

variable (isResp zeroBody : Bool) (memory : HttpParser) (fragments : List Bytes)

/-- A chunked message that was accepted conforms to the grammar when it has a body and no step has
used the freedom of `strtol` and of the skipped bytes. -/
theorem chunkedBody_iff_plain (hsize : fragments.flatten.length < 2 ^ 63)
    (hdone : (feed fragments (freshParser isResp zeroBody memory)).code = 1)
    (hchunked : (feed fragments (freshParser isResp zeroBody memory)).parser.chunked = true) :
    let fed := feed fragments (freshParser isResp zeroBody memory)
    ChunkedBody ((fragments.flatten.take fed.consumed).drop fed.parser.headerOffset) ↔
      fed.parser.bodiless zeroBody = false ∧
        ∀ x ∈ feedSteps fragments (freshParser isResp zeroBody memory), x.Plain :=
  (finished_freshParser isResp zeroBody memory fragments hsize hdone hchunked).chunkedBody_iff

end Fresh

/-- A chunk with an extension and a trailer line, cut inside the data and inside a line end. -/
def plainFragments : List Bytes :=
  [bytesOf "POST / HTTP/1.1\r\nTransfer-Encoding: chunked\r\n\r\n3;a=b\r\nx",
   bytesOf "yz\r", bytesOf "\n0\r\nT: v\r\n\r\n"]

theorem chunkedBody_plainFragments :
    (feed plainFragments (freshParser false false zeroedParser)).code = 1 ∧
    ChunkedBody ((plainFragments.flatten.take
      (feed plainFragments (freshParser false false zeroedParser)).consumed).drop
        (feed plainFragments (freshParser false false zeroedParser)).parser.headerOffset) := by
  have hone : (feed plainFragments (freshParser false false zeroedParser)).code = 1 := by
    decide +kernel
  refine ⟨hone, ?_⟩
  apply (chunkedBody_iff_plain false false zeroedParser plainFragments (by decide +kernel) hone
    (by decide +kernel)).mpr
  decide +kernel

/-- A blank and a `0x` before the digit, a word behind it, and two letters for the line end. -/
def oddFragments : List Bytes :=
  [bytesOf "POST / HTTP/1.1\r\nTransfer-Encoding: chunked\r\n\r\n 0x1 byte\r\naXY0\r\n\r\n"]

theorem not_chunkedBody_oddFragments :
    (feed oddFragments (freshParser false false zeroedParser)).code = 1 ∧
    (feed oddFragments (freshParser false false zeroedParser)).parser.chunked = true ∧
    (feed oddFragments (freshParser false false zeroedParser)).consumed
      = oddFragments.flatten.length ∧
    ¬ ChunkedBody ((oddFragments.flatten.take
      (feed oddFragments (freshParser false false zeroedParser)).consumed).drop
        (feed oddFragments (freshParser false false zeroedParser)).parser.headerOffset) := by
  have hone : (feed oddFragments (freshParser false false zeroedParser)).code = 1 := by
    decide +kernel
  have hchunked : (feed oddFragments (freshParser false false zeroedParser)).parser.chunked = true := by
    decide +kernel
  refine ⟨hone, hchunked, by decide +kernel, ?_⟩
  rw [(finished_freshParser false false zeroedParser oddFragments (by decide +kernel) hone
    hchunked).chunkedBody_iff]
  decide +kernel

end WorkflowModel.Http
