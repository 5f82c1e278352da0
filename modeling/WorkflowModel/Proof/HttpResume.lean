import WorkflowModel.Proof.HttpScan

/-!
# The parser's two loops are resumable

`__parse_message_header` and `__parse_chunk` are instances of the resumable loop. The only thing a
header step changes when it asks for more is `namebuf`, which the next call of the name scanner writes
again from the start. So two parsers count as the same when they agree in everything but the buffers,
and in the name as a C string while a value is being read.
-/

namespace WorkflowModel.Http

open WorkflowModel Resume

def HttpParser.withName (parser : HttpParser) (namebuf : Vector UInt8 httpHeaderNameMax) :
    HttpParser :=
  { parser with namebuf := namebuf }

/-- `parser` with the three buffers of another one. -/
def HttpParser.withBuffers (parser other : HttpParser) : HttpParser :=
  { parser with namebuf := other.namebuf, msgbuf := other.msgbuf, bufsize := other.bufsize }

def SameScan (p q : HttpParser) : Prop :=
  q = p.withBuffers q ∧ (p.headerState = .headerValue → p.name = q.name)

theorem sameScan_refl (p : HttpParser) : SameScan p p := ⟨rfl, fun _ => rfl⟩

theorem sameScan_equivalence : Equivalence SameScan where
  refl := sameScan_refl
  symm := by
    rintro p q ⟨hq, hname⟩
    rw [hq] at hname ⊢
    exact ⟨rfl, fun h => (hname h).symm⟩
  trans := by
    rintro p q r ⟨hq, hname⟩ ⟨hr, hname'⟩
    have hstate : q.headerState = p.headerState := by rw [hq]; rfl
    refine ⟨?_, fun h => (hname h).trans (hname' (hstate.trans h))⟩
    rw [hr, hq]
    rfl

section WithBuffers

variable (p q : HttpParser)

theorem matchMessageHeader_withBuffers (name value : Bytes) :
    matchMessageHeader name value (p.withBuffers q)
      = (matchMessageHeader name value p).withBuffers q := by
  have hexpect : matchExpect name value (p.withBuffers q)
      = (matchExpect name value p).withBuffers q := by
    unfold matchExpect
    split_ifs <;> rfl
  have hconnection : ∀ r : HttpParser, matchConnection name value (r.withBuffers q)
      = (matchConnection name value r).withBuffers q := by
    intro r
    unfold matchConnection
    split_ifs <;> rfl
  have hlength : matchContentLength name value (p.withBuffers q)
      = (matchContentLength name value p).withBuffers q := by
    unfold matchContentLength
    split_ifs <;> rfl
  have hencoding : matchTransferEncoding name value (p.withBuffers q)
      = (matchTransferEncoding name value p).withBuffers q := by
    unfold matchTransferEncoding
    split_ifs <;> rfl
  unfold matchMessageHeader
  split <;> simp only [hexpect, hconnection, hlength, hencoding] <;> rfl

theorem parseStartLine_withBuffers (ptr : Bytes) :
    parseStartLine ptr (p.withBuffers q)
      = ((parseStartLine ptr p).1, (parseStartLine ptr p).2.withBuffers q) := by
  have hresp : (p.withBuffers q).isResp = p.isResp := rfl
  unfold parseStartLine
  rw [hresp]
  split
  · rfl
  · split
    · rfl
    · rfl
    · split
      · rfl
      · cases p.isResp <;> rfl

theorem parseHeaderValue_withBuffers (ptr : Bytes) (h : (p.withBuffers q).name = p.name) :
    parseHeaderValue ptr (p.withBuffers q)
      = ((parseHeaderValue ptr p).1, (parseHeaderValue ptr p).2.withBuffers q) := by
  unfold parseHeaderValue
  split
  · rw [h, matchMessageHeader_withBuffers]
    rfl
  · rfl
  · rfl

end WithBuffers

theorem nameLoop_fst_cases (namebuf : Vector UInt8 httpHeaderNameMax) :
    ∀ {l : Bytes} {i : Nat}, (nameLoop namebuf i l).1 = 1 ∨ (nameLoop namebuf i l).1 = 0 ∨
      (nameLoop namebuf i l).1 = -2 := by
  intro l
  induction l generalizing namebuf with
  | nil =>
      intro i
      simp only [nameLoop]
      split_ifs <;> simp
  | cons c rest ih =>
      intro i
      simp only [nameLoop]
      split_ifs
      · simp
      · simp
      · simp
      · exact ih _

@[simp] theorem verdictOf_one : verdictOf 1 = .again := by decide
@[simp] theorem verdictOf_zero : verdictOf 0 = .more := by decide
@[simp] theorem verdictOf_neg : verdictOf (-2) = .stop (-2) := by decide

/-- The step that runs in the states `HPS_HEADER_NAME` and `HPS_HEADER_COMPLETE`. -/
def nameStep (p : HttpParser) (ptr : Bytes) : Verdict Int × HttpParser :=
  let result := parseHeaderName ptr p
  if result.2.headerState = .headerComplete then (.stop 1, result.2)
  else (verdictOf result.1, result.2)

theorem parseHeaderStep_startLine {p : HttpParser} (ptr : Bytes) (h : p.headerState = .startLine) :
    parseHeaderStep p ptr = (verdictOf (parseStartLine ptr p).1, (parseStartLine ptr p).2) := by
  simp [parseHeaderStep, h]

theorem parseHeaderStep_headerValue {p : HttpParser} (ptr : Bytes)
    (h : p.headerState = .headerValue) :
    parseHeaderStep p ptr = (verdictOf (parseHeaderValue ptr p).1, (parseHeaderValue ptr p).2) := by
  simp [parseHeaderStep, h]

theorem parseHeaderStep_nameStep {p : HttpParser} (ptr : Bytes) (hstart : p.headerState ≠ .startLine)
    (hvalue : p.headerState ≠ .headerValue) : parseHeaderStep p ptr = nameStep p ptr := by
  unfold parseHeaderStep
  split
  · contradiction
  · contradiction
  · rfl

theorem parseStartLine_cases (ptr : Bytes) (p : HttpParser) :
    (startsWithCrlf ptr = true ∧
      parseStartLine ptr p = (1, { p with headerOffset := p.headerOffset + 2 })) ∨
    (startsWithCrlf ptr = false ∧ ∃ content, scanLine httpStartLineMax true [] ptr = .line content ∧
      (parseStartLine ptr p).1 = 1 ∧
      (parseStartLine ptr p).2.headerOffset = p.headerOffset + (content.length + 2) ∧
      (parseStartLine ptr p).2.headerState = .headerName) ∨
    (startsWithCrlf ptr = false ∧ scanLine httpStartLineMax true [] ptr = .more ∧
      parseStartLine ptr p = (0, p)) ∨
    (startsWithCrlf ptr = false ∧ scanLine httpStartLineMax true [] ptr ≠ .more ∧
      parseStartLine ptr p = (-2, p)) := by
  cases hcrlf : startsWithCrlf ptr with
  | true => exact Or.inl ⟨rfl, by simp [parseStartLine, hcrlf]⟩
  | false =>
      right
      cases hscan : scanLine httpStartLineMax true [] ptr with
      | more => exact Or.inr (Or.inl ⟨rfl, rfl, by simp [parseStartLine, hcrlf, hscan]⟩)
      | bad => exact Or.inr (Or.inr ⟨rfl, by simp, by simp [parseStartLine, hcrlf, hscan]⟩)
      | line content =>
          cases hsplit : splitStartLine content with
          | none =>
              exact Or.inr (Or.inr ⟨rfl, by simp, by simp [parseStartLine, hcrlf, hscan, hsplit]⟩)
          | some parts =>
              refine Or.inl ⟨rfl, content, rfl, ?_⟩
              cases hresp : p.isResp <;>
                simp [parseStartLine, hcrlf, hscan, hsplit, hresp, matchStatusLine, matchRequestLine]

theorem matchMessageHeader_headerOffset (name value : Bytes) (p : HttpParser) :
    (matchMessageHeader name value p).headerOffset = p.headerOffset := by
  unfold matchMessageHeader matchConnection matchExpect matchContentLength matchTransferEncoding
    httpParserAddHeader
  split <;> simp only <;> split_ifs <;> rfl

theorem parseHeaderValue_cases (ptr : Bytes) (p : HttpParser) :
    (∃ content rest, valueRound [] ptr = .value content rest ∧ parseHeaderValue ptr p
      = (1, { matchMessageHeader p.name content p with
          headerOffset := p.headerOffset + (ptr.length - rest.length)
          headerState := .headerName })) ∨
    (valueRound [] ptr = .more ∧ parseHeaderValue ptr p = (0, p)) ∨
    (valueRound [] ptr = .bad ∧ parseHeaderValue ptr p = (-2, p)) := by
  have hloop := valueLoop_eq_valueRound ptr.length [] ptr
  cases hround : valueRound [] ptr with
  | more => exact Or.inr (Or.inl ⟨rfl, by simp [parseHeaderValue, hloop, hround]⟩)
  | bad => exact Or.inr (Or.inr ⟨rfl, by simp [parseHeaderValue, hloop, hround]⟩)
  | folded content rest => exact absurd hround valueRound_ne_folded
  | value content rest =>
      refine Or.inl ⟨content, rest, rfl, ?_⟩
      simp [parseHeaderValue, hloop, hround, matchMessageHeader_headerOffset]

theorem nameStep_of_crlf {p : HttpParser} {l : Bytes} (h : startsWithCrlf l = true) :
    nameStep p l = (.stop 1,
      { p with headerOffset := p.headerOffset + 2, headerState := .headerComplete }) := by
  simp [nameStep, parseHeaderName, h]

theorem nameStep_of_name (p : HttpParser) {body rest : Bytes}
    (h : startsWithCrlf (body ++ charColon :: rest) = false) (hlt : body.length < httpHeaderNameMax)
    (hcolon : charColon ∉ body) (hnul : charNul ∉ body) :
    ∃ namebuf, cString namebuf.toList = body ∧ nameStep p (body ++ charColon :: rest)
      = (.again, { p with
          namebuf := namebuf
          headerOffset := p.headerOffset + (body.length + 1)
          headerState := .headerValue }) := by
  obtain ⟨namebuf, hloop, hstring⟩ := nameLoop_eq_one rest body 0 p.namebuf (by simpa using hlt)
    hcolon hnul (by simp)
  refine ⟨namebuf, by simpa using hstring, ?_⟩
  simp [nameStep, parseHeaderName, h, hloop]

theorem nameStep_of_ne_one {p : HttpParser} {l : Bytes} (hp : p.headerState = .headerName)
    (h : startsWithCrlf l = false) (hne : (nameLoop p.namebuf 0 l).1 ≠ 1) :
    nameStep p l
      = (verdictOf (nameLoop p.namebuf 0 l).1, p.withName (nameLoop p.namebuf 0 l).2.1) := by
  have hparse : parseHeaderName l p
      = ((nameLoop p.namebuf 0 l).1, p.withName (nameLoop p.namebuf 0 l).2.1) := by
    unfold parseHeaderName
    rw [if_neg (by simp [h])]
    split
    · rename_i hloop
      simp [hloop] at hne
    · rename_i hloop
      simp [hloop, HttpParser.withName]
  simp [nameStep, hparse, HttpParser.withName, hp]

theorem nameInput_cases (namebuf : Vector UInt8 httpHeaderNameMax) (l : Bytes) :
    startsWithCrlf l = true ∨
    (startsWithCrlf l = false ∧ ∃ body rest, l = body ++ charColon :: rest ∧
      body.length < httpHeaderNameMax ∧ charColon ∉ body ∧ charNul ∉ body) ∨
    (startsWithCrlf l = false ∧ (nameLoop namebuf 0 l).1 = 0) ∨
    (startsWithCrlf l = false ∧ (nameLoop namebuf 0 l).1 = -2) := by
  cases hcrlf : startsWithCrlf l with
  | true => simp
  | false =>
      rcases nameLoop_fst_cases namebuf (l := l) (i := 0) with hone | hzero | hneg
      · obtain ⟨body, rest, hl, hlt, hcolon, hnul⟩ := exists_name_of_nameLoop (by simp) hone
        rw [Nat.zero_add] at hlt
        exact Or.inr (Or.inl ⟨rfl, body, rest, hl, hlt, hcolon, hnul⟩)
      · exact Or.inr (Or.inr (Or.inl ⟨rfl, hzero⟩))
      · exact Or.inr (Or.inr (Or.inr ⟨rfl, hneg⟩))

theorem startsWithCrlf_append_of_name {namebuf : Vector UInt8 httpHeaderNameMax} {l : Bytes}
    (tail : Bytes) (h : (nameLoop namebuf 0 l).1 ≠ 0) :
    startsWithCrlf (l ++ tail) = startsWithCrlf l := by
  match l with
  | [] => simp [nameLoop, httpHeaderNameMax] at h
  | [c] =>
      by_cases hc : c = charCr
      · subst hc
        simp [nameLoop, httpHeaderNameMax, charCr, charColon, charNul] at h
      · exact startsWithCrlf_append_of_ne tail hc
  | c :: d :: rest => exact startsWithCrlf_append tail (by simp)

theorem startsWithCrlf_append_of_scanLine {l : Bytes} (tail : Bytes)
    (h : scanLine httpStartLineMax true [] l ≠ .more) :
    startsWithCrlf (l ++ tail) = startsWithCrlf l := by
  match l with
  | [] => simp [scanLine, httpStartLineMax] at h
  | [c] =>
      by_cases hc : c = charCr
      · simp [scanLine, hc, httpStartLineMax] at h
      · exact startsWithCrlf_append_of_ne tail hc
  | c :: d :: rest => exact startsWithCrlf_append tail (by simp)

def HeaderLive (p : HttpParser) : Prop := p.headerState ≠ .headerComplete

theorem startLine_stable {p : HttpParser} {l : Bytes} (tail : Bytes)
    (h : (parseStartLine l p).1 ≠ 0) : parseStartLine (l ++ tail) p = parseStartLine l p := by
  rcases parseStartLine_cases l p with ⟨hcrlf, -⟩ | ⟨hcrlf, content, hscan, -⟩ | ⟨-, -, heq⟩ |
    ⟨hcrlf, hscan, -⟩
  · have hcrlf' : startsWithCrlf (l ++ tail) = true := by
      rw [startsWithCrlf_append tail (length_of_startsWithCrlf hcrlf)]
      exact hcrlf
    simp [parseStartLine, hcrlf, hcrlf']
  · have hcrlf' := startsWithCrlf_append_of_scanLine (l := l) tail (by rw [hscan]; simp)
    have hscan' := scanLine_append tail (l := l) (by rw [hscan]; simp)
    rw [parseStartLine, parseStartLine, hcrlf', hscan']
  · simp [heq] at h
  · have hcrlf' := startsWithCrlf_append_of_scanLine tail hscan
    have hscan' := scanLine_append tail hscan
    rw [parseStartLine, parseStartLine, hcrlf', hscan']

theorem headerValue_stable {p : HttpParser} {l : Bytes} (tail : Bytes)
    (h : (parseHeaderValue l p).1 ≠ 0) : parseHeaderValue (l ++ tail) p = parseHeaderValue l p := by
  rcases parseHeaderValue_cases l p with ⟨content, rest, hround, -⟩ | ⟨-, heq⟩ | ⟨hround, -⟩
  · have hlen : (l ++ tail).length - (rest ++ tail).length = l.length - rest.length := by
      simp only [List.length_append]
      omega
    simp only [parseHeaderValue, valueLoop_eq_valueRound, hround,
      valueRound_append_of_value tail hround, hlen]
  · simp [heq] at h
  · simp only [parseHeaderValue, valueLoop_eq_valueRound, hround,
      valueRound_append_of_bad tail hround]

theorem nameStep_stable {p : HttpParser} {l : Bytes} (tail : Bytes)
    (hp : p.headerState = .headerName) (h : (nameStep p l).1 ≠ .more) :
    nameStep p (l ++ tail) = nameStep p l := by
  cases hcrlf : startsWithCrlf l with
  | true =>
      have hcrlf' : startsWithCrlf (l ++ tail) = true := by
        rw [startsWithCrlf_append tail (length_of_startsWithCrlf hcrlf)]
        exact hcrlf
      rw [nameStep_of_crlf hcrlf, nameStep_of_crlf hcrlf']
  | false =>
      have hloop : (nameLoop p.namebuf 0 l).1 ≠ 0 := by
        intro hzero
        rw [nameStep_of_ne_one hp hcrlf (by simp [hzero]), hzero] at h
        simp at h
      have hcrlf' := startsWithCrlf_append_of_name tail hloop
      unfold nameStep parseHeaderName
      rw [hcrlf', nameLoop_append tail hloop]

theorem verdictOf_ne_more_iff {ret : Int} : verdictOf ret ≠ .more ↔ ret ≠ 0 := by
  unfold verdictOf
  split_ifs <;> simp <;> omega

theorem parseHeaderStep_stable {p : HttpParser} {l : Bytes} (tail : Bytes) (hp : HeaderLive p)
    (h : (parseHeaderStep p l).1 ≠ .more) :
    parseHeaderStep p (l ++ tail) = parseHeaderStep p l := by
  cases hstate : p.headerState with
  | startLine =>
      rw [parseHeaderStep_startLine l hstate] at h ⊢
      rw [parseHeaderStep_startLine _ hstate, startLine_stable tail (verdictOf_ne_more_iff.mp h)]
  | headerValue =>
      rw [parseHeaderStep_headerValue l hstate] at h ⊢
      rw [parseHeaderStep_headerValue _ hstate,
        headerValue_stable tail (verdictOf_ne_more_iff.mp h)]
  | headerComplete => exact absurd hstate hp
  | headerName =>
      rw [parseHeaderStep_nameStep l (by simp [hstate]) (by simp [hstate])] at h ⊢
      rw [parseHeaderStep_nameStep _ (by simp [hstate]) (by simp [hstate]),
        nameStep_stable tail hstate h]

theorem parseHeaderStep_congr {p q : HttpParser} (l : Bytes) (hp : HeaderLive p)
    (h : SameScan p q) : (parseHeaderStep p l).1 = (parseHeaderStep q l).1 ∧
      SameScan (parseHeaderStep p l).2 (parseHeaderStep q l).2 := by
  obtain ⟨hq, hname⟩ := h
  cases hstate : p.headerState with
  | startLine =>
      have hstate' : q.headerState = .startLine := by rw [hq]; exact hstate
      rw [parseHeaderStep_startLine l hstate, parseHeaderStep_startLine l hstate', hq,
        parseStartLine_withBuffers]
      refine ⟨rfl, rfl, ?_⟩
      intro hvalue
      exfalso
      rcases parseStartLine_cases l p with ⟨-, heq⟩ | ⟨-, content, -, -, -, heq⟩ | ⟨-, -, heq⟩ |
        ⟨-, -, heq⟩
      · simp [heq, hstate] at hvalue
      · simp [heq] at hvalue
      · simp [heq, hstate] at hvalue
      · simp [heq, hstate] at hvalue
  | headerValue =>
      have hstate' : q.headerState = .headerValue := by rw [hq]; exact hstate
      have hname' : (p.withBuffers q).name = p.name := (hname hstate).symm
      rw [parseHeaderStep_headerValue l hstate, parseHeaderStep_headerValue l hstate', hq,
        parseHeaderValue_withBuffers p q l hname']
      refine ⟨rfl, rfl, ?_⟩
      intro hvalue
      rcases parseHeaderValue_cases l p with ⟨content, rest, -, heq⟩ | ⟨-, heq⟩ | ⟨-, heq⟩
      · simp [heq] at hvalue
      · simp only [heq]
        exact hname'.symm
      · simp only [heq]
        exact hname'.symm
  | headerComplete => exact absurd hstate hp
  | headerName =>
      have hstate' : q.headerState = .headerName := by rw [hq]; exact hstate
      rw [parseHeaderStep_nameStep l (by simp [hstate]) (by simp [hstate]),
        parseHeaderStep_nameStep l (by simp [hstate']) (by simp [hstate'])]
      have hloop := nameLoop_fst_eq p.namebuf q.namebuf (l := l) (i := 0)
      rcases nameInput_cases p.namebuf l with hcrlf | ⟨hcrlf, body, rest, rfl, hlt, hcolon, hnul⟩ |
        ⟨hcrlf, hcode⟩ | ⟨hcrlf, hcode⟩
      · rw [nameStep_of_crlf hcrlf, nameStep_of_crlf hcrlf, hq]
        exact ⟨rfl, rfl, by simp⟩
      · obtain ⟨namebuf, hstring, hp'⟩ := nameStep_of_name p hcrlf hlt hcolon hnul
        obtain ⟨namebuf', hstring', hq'⟩ := nameStep_of_name q hcrlf hlt hcolon hnul
        rw [hp', hq', hq]
        refine ⟨rfl, rfl, fun _ => ?_⟩
        simp only [HttpParser.name, hstring, hstring']
      · rw [nameStep_of_ne_one hstate hcrlf (by simp [hcode]),
          nameStep_of_ne_one hstate' hcrlf (by simp [← hloop, hcode]), ← hloop, hq]
        refine ⟨rfl, rfl, ?_⟩
        simp [HttpParser.withName, hstate]
      · rw [nameStep_of_ne_one hstate hcrlf (by simp [hcode]),
          nameStep_of_ne_one hstate' hcrlf (by simp [← hloop, hcode]), ← hloop, hq]
        refine ⟨rfl, rfl, ?_⟩
        simp [HttpParser.withName, hstate]

/-- What a step of the header loop can do: it moves on, it finds the end of the header, or it changes nothing
that a later step reads. -/
theorem parseHeaderStep_cases {p : HttpParser} (l : Bytes) (hp : HeaderLive p) :
    ((parseHeaderStep p l).1 = .again ∧ HeaderLive (parseHeaderStep p l).2 ∧
      p.headerOffset < (parseHeaderStep p l).2.headerOffset ∧
      (parseHeaderStep p l).2.headerOffset ≤ p.headerOffset + l.length ∧
      ((parseHeaderStep p l).2.headerState = .headerValue →
        (parseHeaderStep p l).2.name.length < httpHeaderNameMax)) ∨
    ((parseHeaderStep p l).1 = .stop 1 ∧ (parseHeaderStep p l).2.headerState = .headerComplete ∧
      p.headerOffset < (parseHeaderStep p l).2.headerOffset ∧
      (parseHeaderStep p l).2.headerOffset ≤ p.headerOffset + l.length) ∨
    (((parseHeaderStep p l).1 = .more ∨ (parseHeaderStep p l).1 = .stop (-2)) ∧
      SameScan (parseHeaderStep p l).2 p) := by
  unfold HeaderLive
  cases hstate : p.headerState with
  | startLine =>
      rw [parseHeaderStep_startLine l hstate]
      rcases parseStartLine_cases l p with ⟨hcrlf, heq⟩ | ⟨-, content, hscan, hret, hoffset, hnext⟩ |
        ⟨-, -, heq⟩ | ⟨-, -, heq⟩
      · have := length_of_startsWithCrlf hcrlf
        left
        simp [heq, hstate]
        omega
      · have := length_of_scanLine hscan
        left
        simp [hret, hoffset, hnext]
        omega
      · rw [heq]
        exact Or.inr (Or.inr ⟨Or.inl rfl, sameScan_refl p⟩)
      · rw [heq]
        exact Or.inr (Or.inr ⟨Or.inr rfl, sameScan_refl p⟩)
  | headerValue =>
      rw [parseHeaderStep_headerValue l hstate]
      rcases parseHeaderValue_cases l p with ⟨content, rest, hround, heq⟩ | ⟨-, heq⟩ | ⟨-, heq⟩
      · have := length_lt_of_valueRound hround
        left
        simp [heq]
        omega
      · rw [heq]
        exact Or.inr (Or.inr ⟨Or.inl rfl, sameScan_refl p⟩)
      · rw [heq]
        exact Or.inr (Or.inr ⟨Or.inr rfl, sameScan_refl p⟩)
  | headerComplete => exact absurd hstate hp
  | headerName =>
      have hsame : ∀ namebuf, SameScan (p.withName namebuf) p := by
        intro namebuf
        refine ⟨rfl, ?_⟩
        simp [HttpParser.withName, hstate]
      rw [parseHeaderStep_nameStep l (by simp [hstate]) (by simp [hstate])]
      rcases nameInput_cases p.namebuf l with hcrlf | ⟨hcrlf, body, rest, rfl, hlt, hcolon, hnul⟩ |
        ⟨hcrlf, hcode⟩ | ⟨hcrlf, hcode⟩
      · have := length_of_startsWithCrlf hcrlf
        right
        left
        simp [nameStep_of_crlf hcrlf]
        omega
      · obtain ⟨namebuf, hbody, heq⟩ := nameStep_of_name p hcrlf hlt hcolon hnul
        left
        rw [heq, List.length_append, List.length_cons]
        refine ⟨rfl, by simp, by simp, by simp, fun _ => ?_⟩
        rw [HttpParser.name, hbody]
        exact hlt
      · rw [nameStep_of_ne_one hstate hcrlf (by simp [hcode]), hcode]
        exact Or.inr (Or.inr ⟨Or.inl rfl, hsame _⟩)
      · rw [nameStep_of_ne_one hstate hcrlf (by simp [hcode]), hcode]
        exact Or.inr (Or.inr ⟨Or.inr rfl, hsame _⟩)

theorem parseHeaderStep_more {p : HttpParser} {l : Bytes} (hp : HeaderLive p)
    (h : (parseHeaderStep p l).1 = .more) : SameScan (parseHeaderStep p l).2 p := by
  rcases parseHeaderStep_cases l hp with ⟨hagain, -⟩ | ⟨hstop, -⟩ | ⟨-, hsame⟩
  · simp [hagain] at h
  · simp [hstop] at h
  · exact hsame

theorem parseHeaderStep_advance {p : HttpParser} {l : Bytes} (hp : HeaderLive p)
    (h : (parseHeaderStep p l).1 = .again ∨ (parseHeaderStep p l).1 = .stop 1) :
    p.headerOffset < (parseHeaderStep p l).2.headerOffset ∧
      (parseHeaderStep p l).2.headerOffset ≤ p.headerOffset + l.length ∧
      ((parseHeaderStep p l).1 = .again → HeaderLive (parseHeaderStep p l).2) := by
  rcases parseHeaderStep_cases l hp with ⟨-, hlive, hforward, hinside, -⟩ | ⟨hstop, -, hforward, hinside⟩ |
    ⟨hmore | hbad, -⟩
  · exact ⟨hforward, hinside, fun _ => hlive⟩
  · exact ⟨hforward, hinside, by simp [hstop]⟩
  · simp [hmore] at h
  · simp [hbad] at h

/-- A step that had asked for more and then accepts ends behind the bytes it had asked at. -/
theorem parseHeaderStep_reach {p : HttpParser} {l tail : Bytes} (hp : HeaderLive p)
    (hmore : (parseHeaderStep p l).1 = .more)
    (h : (parseHeaderStep p (l ++ tail)).1 = .again ∨
      (parseHeaderStep p (l ++ tail)).1 = .stop 1) :
    p.headerOffset + l.length ≤ (parseHeaderStep p (l ++ tail)).2.headerOffset := by
  have hshort : ∀ {l : Bytes}, startsWithCrlf (l ++ tail) = true → startsWithCrlf l = false →
      l.length < 2 := by
    intro l hcrlf' hcrlf
    by_contra hle
    rw [startsWithCrlf_append tail (by omega)] at hcrlf'
    simp [hcrlf] at hcrlf'
  cases hstate : p.headerState with
  | startLine =>
      rw [parseHeaderStep_startLine _ hstate] at h hmore ⊢
      rcases parseStartLine_cases l p with ⟨-, heq⟩ | ⟨-, content, -, heq, -⟩ | ⟨hcrlf, hscan, -⟩ |
        ⟨-, -, heq⟩
      · simp [heq] at hmore
      · simp [heq] at hmore
      · rcases parseStartLine_cases (l ++ tail) p with ⟨hcrlf', heq⟩ |
          ⟨-, content, hscan', -, hoffset, -⟩ | ⟨-, -, heq⟩ | ⟨-, -, heq⟩
        · have := hshort hcrlf' hcrlf
          simp [heq]
          omega
        · have := length_lt_of_scanLine_more hscan hscan'
          simp [hoffset]
          omega
        · simp [heq] at h
        · simp [heq] at h
      · simp [heq] at hmore
  | headerValue =>
      rw [parseHeaderStep_headerValue _ hstate] at h hmore ⊢
      rcases parseHeaderValue_cases l p with ⟨content, rest, -, heq⟩ | ⟨hround, -⟩ | ⟨-, heq⟩
      · simp [heq] at hmore
      · rcases parseHeaderValue_cases (l ++ tail) p with ⟨content, rest, hround', heq⟩ | ⟨-, heq⟩ |
          ⟨-, heq⟩
        · have := length_le_of_valueRound_more hround hround'
          simp [heq]
          omega
        · simp [heq] at h
        · simp [heq] at h
      · simp [heq] at hmore
  | headerComplete => exact absurd hstate hp
  | headerName =>
      rw [parseHeaderStep_nameStep _ (by simp [hstate]) (by simp [hstate])] at h hmore ⊢
      rcases nameInput_cases p.namebuf l with hcrlf | ⟨hcrlf, body, rest, rfl, hlt, hcolon, hnul⟩ |
        ⟨hcrlf, hcode⟩ | ⟨hcrlf, hcode⟩
      · simp [nameStep_of_crlf hcrlf] at hmore
      · obtain ⟨namebuf, -, heq⟩ := nameStep_of_name p hcrlf hlt hcolon hnul
        simp [heq] at hmore
      · rcases nameInput_cases p.namebuf (l ++ tail) with hcrlf' |
          ⟨hcrlf', body, rest, hl, hlt, hcolon, hnul⟩ | ⟨hcrlf', hcode'⟩ | ⟨hcrlf', hcode'⟩
        · have := hshort hcrlf' hcrlf
          simp [nameStep_of_crlf hcrlf']
          omega
        · have := length_lt_of_nameLoop_zero hcode hl hlt hcolon hnul
          rw [hl] at hcrlf' ⊢
          obtain ⟨namebuf, -, heq⟩ := nameStep_of_name p hcrlf' hlt hcolon hnul
          simp [heq]
          omega
        · rw [nameStep_of_ne_one hstate hcrlf' (by simp [hcode']), hcode'] at h
          simp at h
        · rw [nameStep_of_ne_one hstate hcrlf' (by simp [hcode']), hcode'] at h
          simp at h
      · rw [nameStep_of_ne_one hstate hcrlf (by simp [hcode]), hcode] at hmore
        simp at hmore

theorem headerMachine_resumable : headerMachine.Resumable HeaderLive SameScan where
  equivalence := sameScan_equivalence
  offset_eq := by
    rintro p q ⟨hq, -⟩
    rw [hq]
    rfl
  live_of_rel := by
    rintro p q ⟨hq, -⟩ hp
    rw [hq]
    exact hp
  congr := fun l hp h => parseHeaderStep_congr l hp h
  stable := fun tail hp h => parseHeaderStep_stable tail hp h
  more := fun hp h => parseHeaderStep_more hp h
  live_again := fun hp h => (parseHeaderStep_advance hp (Or.inl h)).2.2 h
  advance := fun hp h =>
    ⟨(parseHeaderStep_advance hp (Or.inl h)).1, (parseHeaderStep_advance hp (Or.inl h)).2.1⟩

theorem headerMachine_reaches : headerMachine.Reaches HeaderLive 1 where
  reach := fun _ hp hmore h => parseHeaderStep_reach hp hmore h
  inside := fun hp h =>
    have hadvance := parseHeaderStep_advance hp (Or.inr h)
    ⟨hadvance.1.le, hadvance.2.1⟩

def ChunkLive (p : HttpParser) : Prop := p.chunkState ≠ .chunkComplete

/-- What a chunk line with the given content makes of the unread bytes: a malformed or oversized size,
a chunk that has not arrived yet, the last chunk, or a chunk of `length` bytes with its two lines. -/
inductive ChunkLine where
  | bad
  | short
  | last
  | chunk (length : Nat)

def chunkLine (content ptr : Bytes) : ChunkLine :=
  if (strtol 16 content).2 = 0 then
    .bad
  else if (strtol 16 content).1 = 0 then
    .last
  else if sizeOfInt (strtol 16 content).1 < chunkSizeMax then
    if ptr.length < (strtol 16 content).1.toNat + (content.length + 4) then .short
    else .chunk ((strtol 16 content).1.toNat + (content.length + 4))
  else
    .bad

theorem parseChunkData_of_line {ptr content : Bytes} (p : HttpParser)
    (h : scanLine httpChunkLineMax false [] ptr = .line content) :
    parseChunkData ptr p = match chunkLine content ptr with
      | .bad => (-2, p)
      | .short => (0, p)
      | .last => (1, { p with
          chunkState := .trailerPart
          chunkOffset := p.chunkOffset + (content.length + 2) })
      | .chunk length => (1, { p with chunkOffset := p.chunkOffset + length }) := by
  simp only [parseChunkData, h, chunkLine]
  split_ifs <;> rfl

theorem chunkLine_append {content ptr : Bytes} (tail : Bytes) (h : chunkLine content ptr ≠ .short) :
    chunkLine content (ptr ++ tail) = chunkLine content ptr := by
  unfold chunkLine at h ⊢
  split_ifs at h ⊢ with hstop hzero hmax hlen hlen' hlen'
  · rfl
  · rfl
  · exact absurd rfl h
  · simp only [List.length_append] at hlen
    omega
  · exact absurd rfl h
  · rfl
  · rfl

theorem length_of_chunkLine {content ptr : Bytes} {length : Nat}
    (h : chunkLine content ptr = .chunk length) : length ≤ ptr.length ∧ 0 < length := by
  unfold chunkLine at h
  split_ifs at h with hstop hzero hmax hlen
  simp only [ChunkLine.chunk.injEq] at h
  omega

theorem length_lt_of_chunkLine_short {content ptr tail : Bytes} {length : Nat}
    (hshort : chunkLine content ptr = .short) (h : chunkLine content (ptr ++ tail) = .chunk length) :
    ptr.length < length := by
  unfold chunkLine at h hshort
  split_ifs at h hshort with hstop hzero hmax hlen hlen'
  simp only [ChunkLine.chunk.injEq] at h
  omega

theorem parseChunkStep_chunkData {p : HttpParser} (ptr : Bytes) (h : p.chunkState = .chunkData) :
    parseChunkStep p ptr = (verdictOf (parseChunkData ptr p).1, (parseChunkData ptr p).2) := by
  simp [parseChunkStep, h]

theorem parseChunkStep_trailerPart {p : HttpParser} (ptr : Bytes)
    (h : p.chunkState = .trailerPart) :
    parseChunkStep p ptr = match scanLine httpTrailerLineMax false [] ptr with
      | .more => (.more, p)
      | .bad => (.stop (-2), p)
      | .line content =>
          if content.length = 0 then
            (.stop 1, { p with chunkOffset := p.chunkOffset + 2, chunkState := .chunkComplete })
          else
            (.again, { p with chunkOffset := p.chunkOffset + (content.length + 2) }) := by
  unfold parseChunkStep parseTrailerPart
  rw [h]
  cases scanLine httpTrailerLineMax false [] ptr with
  | more => simp [h]
  | bad => simp [h]
  | line content =>
      by_cases hempty : content.length = 0
      · simp [hempty]
      · simp [hempty]

theorem parseChunkStep_stable {p : HttpParser} {l : Bytes} (tail : Bytes) (hp : ChunkLive p)
    (h : (parseChunkStep p l).1 ≠ .more) : parseChunkStep p (l ++ tail) = parseChunkStep p l := by
  cases hstate : p.chunkState with
  | chunkComplete => exact absurd hstate hp
  | chunkData =>
      rw [parseChunkStep_chunkData l hstate] at h ⊢
      rw [parseChunkStep_chunkData _ hstate]
      cases hscan : scanLine httpChunkLineMax false [] l with
      | more => simp [parseChunkData, hscan] at h
      | bad =>
          have hscan' := scanLine_append tail (l := l) (by rw [hscan]; simp)
          simp [parseChunkData, hscan, hscan']
      | line content =>
          have hscan' := scanLine_append tail (l := l) (by rw [hscan]; simp)
          rw [parseChunkData_of_line p hscan] at h
          rw [parseChunkData_of_line p hscan, parseChunkData_of_line p (hscan'.trans hscan),
            chunkLine_append tail]
          intro hshort
          simp [hshort] at h
  | trailerPart =>
      rw [parseChunkStep_trailerPart l hstate] at h ⊢
      rw [parseChunkStep_trailerPart _ hstate, scanLine_append tail]
      intro hmore
      simp [hmore] at h

/-- What a step of the chunk loop can do: it moves on, it finds the end of the body, or it changes nothing. -/
theorem parseChunkStep_cases {p : HttpParser} (l : Bytes) (hp : ChunkLive p) :
    ((parseChunkStep p l).1 = .again ∧ ChunkLive (parseChunkStep p l).2 ∧
      p.chunkOffset < (parseChunkStep p l).2.chunkOffset ∧
      (parseChunkStep p l).2.chunkOffset ≤ p.chunkOffset + l.length) ∨
    ((parseChunkStep p l).1 = .stop 1 ∧
      p.chunkOffset < (parseChunkStep p l).2.chunkOffset ∧
      (parseChunkStep p l).2.chunkOffset ≤ p.chunkOffset + l.length) ∨
    (((parseChunkStep p l).1 = .more ∨ (parseChunkStep p l).1 = .stop (-2)) ∧ (parseChunkStep p l).2 = p) := by
  unfold ChunkLive
  cases hstate : p.chunkState with
  | chunkComplete => exact absurd hstate hp
  | chunkData =>
      rw [parseChunkStep_chunkData l hstate]
      cases hscan : scanLine httpChunkLineMax false [] l with
      | more => simp [parseChunkData, hscan]
      | bad => simp [parseChunkData, hscan]
      | line content =>
          have hlen := length_of_scanLine hscan
          rw [parseChunkData_of_line p hscan]
          cases hline : chunkLine content l with
          | bad => simp
          | short => simp
          | last => simp; omega
          | chunk length =>
              have := length_of_chunkLine hline
              simp [hstate]
              omega
  | trailerPart =>
      rw [parseChunkStep_trailerPart l hstate]
      cases hscan : scanLine httpTrailerLineMax false [] l with
      | more => simp
      | bad => simp
      | line content =>
          have hlen := length_of_scanLine hscan
          by_cases hempty : content.length = 0
          · simp [hempty]
            omega
          · simp [hempty, hstate]
            omega

theorem parseChunkStep_more {p : HttpParser} {l : Bytes} (hp : ChunkLive p)
    (h : (parseChunkStep p l).1 = .more) : (parseChunkStep p l).2 = p := by
  rcases parseChunkStep_cases l hp with ⟨hagain, -⟩ | ⟨hstop, -⟩ | ⟨-, hsame⟩
  · simp [hagain] at h
  · simp [hstop] at h
  · exact hsame

theorem parseChunkStep_advance {p : HttpParser} {l : Bytes} (hp : ChunkLive p)
    (h : (parseChunkStep p l).1 = .again ∨ (parseChunkStep p l).1 = .stop 1) :
    p.chunkOffset < (parseChunkStep p l).2.chunkOffset ∧
      (parseChunkStep p l).2.chunkOffset ≤ p.chunkOffset + l.length ∧
      ((parseChunkStep p l).1 = .again → ChunkLive (parseChunkStep p l).2) := by
  rcases parseChunkStep_cases l hp with ⟨-, hlive, hforward, hinside⟩ | ⟨hstop, hforward, hinside⟩ |
    ⟨hmore | hbad, -⟩
  · exact ⟨hforward, hinside, fun _ => hlive⟩
  · exact ⟨hforward, hinside, by simp [hstop]⟩
  · simp [hmore] at h
  · simp [hbad] at h

theorem parseChunkStep_reach {p : HttpParser} {l tail : Bytes} (hp : ChunkLive p)
    (hmore : (parseChunkStep p l).1 = .more)
    (h : (parseChunkStep p (l ++ tail)).1 = .again ∨ (parseChunkStep p (l ++ tail)).1 = .stop 1) :
    p.chunkOffset + l.length ≤ (parseChunkStep p (l ++ tail)).2.chunkOffset := by
  cases hstate : p.chunkState with
  | chunkComplete => exact absurd hstate hp
  | chunkData =>
      rw [parseChunkStep_chunkData _ hstate] at h hmore ⊢
      cases hscan' : scanLine httpChunkLineMax false [] (l ++ tail) with
      | more => simp [parseChunkData, hscan'] at h
      | bad => simp [parseChunkData, hscan'] at h
      | line content =>
          rw [parseChunkData_of_line p hscan'] at h ⊢
          cases hscan : scanLine httpChunkLineMax false [] l with
          | bad => simp [parseChunkData, hscan] at hmore
          | more =>
              have hlen := length_lt_of_scanLine_more hscan hscan'
              cases hline : chunkLine content (l ++ tail) with
              | bad => simp [hline] at h
              | short => simp [hline] at h
              | last => simp; omega
              | chunk length =>
                  have : content.length + 4 ≤ length := by
                    unfold chunkLine at hline
                    split_ifs at hline
                    simp only [ChunkLine.chunk.injEq] at hline
                    omega
                  simp
                  omega
          | line content' =>
              have hsame : content' = content := by
                have := scanLine_append tail (l := l) (by rw [hscan]; simp)
                rw [hscan, hscan'] at this
                simpa using this.symm
              subst hsame
              rw [parseChunkData_of_line p hscan] at hmore
              cases hline' : chunkLine content' l with
              | bad => simp [hline'] at hmore
              | last => simp [hline'] at hmore
              | chunk length => simp [hline'] at hmore
              | short =>
                  cases hline : chunkLine content' (l ++ tail) with
                  | bad => simp [hline] at h
                  | short => simp [hline] at h
                  | last =>
                      unfold chunkLine at hline hline'
                      split_ifs at hline hline'
                  | chunk length =>
                      have := length_lt_of_chunkLine_short hline' hline
                      simp
                      omega
  | trailerPart =>
      rw [parseChunkStep_trailerPart _ hstate] at h hmore ⊢
      cases hscan' : scanLine httpTrailerLineMax false [] (l ++ tail) with
      | more => simp [hscan'] at h
      | bad => simp [hscan'] at h
      | line content =>
          cases hscan : scanLine httpTrailerLineMax false [] l with
          | bad => simp [hscan] at hmore
          | line content' =>
              by_cases hempty : content'.length = 0
              · simp [hscan, hempty] at hmore
              · simp [hscan, hempty] at hmore
          | more =>
              have hlen := length_lt_of_scanLine_more hscan hscan'
              by_cases hempty : content.length = 0
              · simp [hempty]
                omega
              · simp [hempty]
                omega

theorem parseChunkStep_withBuffers (p q : HttpParser) (l : Bytes) :
    parseChunkStep (p.withBuffers q) l
      = ((parseChunkStep p l).1, (parseChunkStep p l).2.withBuffers q) := by
  have hdata : parseChunkData l (p.withBuffers q)
      = ((parseChunkData l p).1, (parseChunkData l p).2.withBuffers q) := by
    cases hscan : scanLine httpChunkLineMax false [] l with
    | more => simp [parseChunkData, hscan]
    | bad => simp [parseChunkData, hscan]
    | line content =>
        rw [parseChunkData_of_line _ hscan, parseChunkData_of_line _ hscan]
        cases chunkLine content l <;> rfl
  have hstate : (p.withBuffers q).chunkState = p.chunkState := rfl
  have htrailer : parseTrailerPart l (p.withBuffers q)
      = ((parseTrailerPart l p).1, (parseTrailerPart l p).2.withBuffers q) := by
    unfold parseTrailerPart
    split <;> rfl
  have hnext : ((parseTrailerPart l p).2.withBuffers q).chunkState
      = (parseTrailerPart l p).2.chunkState := rfl
  unfold parseChunkStep
  rw [hstate]
  split
  · simp only [hdata]
  · simp only [htrailer, hnext]
    split_ifs <;> rfl

theorem parseChunkStep_frame (p : HttpParser) (l : Bytes) :
    (parseChunkStep p l).2 = { p with
      chunkState := (parseChunkStep p l).2.chunkState
      chunkOffset := (parseChunkStep p l).2.chunkOffset } := by
  have hdata : (parseChunkData l p).2 = { p with
      chunkState := (parseChunkData l p).2.chunkState
      chunkOffset := (parseChunkData l p).2.chunkOffset } := by
    cases hscan : scanLine httpChunkLineMax false [] l with
    | more => simp [parseChunkData, hscan]
    | bad => simp [parseChunkData, hscan]
    | line content =>
        rw [parseChunkData_of_line _ hscan]
        cases chunkLine content l <;> rfl
  have htrailer : (parseTrailerPart l p).2 = { p with
      chunkState := (parseTrailerPart l p).2.chunkState
      chunkOffset := (parseTrailerPart l p).2.chunkOffset } := by
    unfold parseTrailerPart
    split <;> rfl
  unfold parseChunkStep
  split
  · exact hdata
  · dsimp only
    split_ifs <;> exact htrailer

theorem chunkMachine_resumable : chunkMachine.Resumable ChunkLive SameScan where
  equivalence := sameScan_equivalence
  offset_eq := by
    rintro p q ⟨hq, -⟩
    rw [hq]
    rfl
  live_of_rel := by
    rintro p q ⟨hq, -⟩ hp
    rw [hq]
    exact hp
  congr := by
    rintro p q l - ⟨hq, hname⟩
    have hp := parseChunkStep_frame p l
    change (parseChunkStep p l).1 = (parseChunkStep q l).1 ∧
      SameScan (parseChunkStep p l).2 (parseChunkStep q l).2
    rw [hq, parseChunkStep_withBuffers]
    refine ⟨rfl, rfl, ?_⟩
    intro hvalue
    rw [hp] at hvalue ⊢
    exact hname hvalue
  stable := fun tail hp h => parseChunkStep_stable tail hp h
  more := by
    intro p l hp h
    rw [show (chunkMachine.step p l).2 = p from parseChunkStep_more hp h]
    exact sameScan_refl p
  live_again := fun hp h => (parseChunkStep_advance hp (Or.inl h)).2.2 h
  advance := fun hp h =>
    ⟨(parseChunkStep_advance hp (Or.inl h)).1, (parseChunkStep_advance hp (Or.inl h)).2.1⟩

theorem chunkMachine_reaches : chunkMachine.Reaches ChunkLive 1 where
  reach := fun _ hp hmore h => parseChunkStep_reach hp hmore h
  inside := fun hp h =>
    have hadvance := parseChunkStep_advance hp (Or.inr h)
    ⟨hadvance.1.le, hadvance.2.1⟩

end WorkflowModel.Http
