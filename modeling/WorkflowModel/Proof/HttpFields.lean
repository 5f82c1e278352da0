import WorkflowModel.Proof.HttpEncode
import Mathlib.Data.List.Infix

/-!
# The headers that a message leaves behind

However a stream is cut, the parser stores the headers that one scan of the whole stream would store.
With the grammar of heads this says which fields of which streams are stored. Two things are not as
one would have them. The name scanner stops at nothing but a colon and a NUL, so a line without a
colon runs into the next one. And the value scanner never continues a value on the next line, since
its test for a blank is always false.
-/

namespace WorkflowModel.Http

open WorkflowModel Resume

/-- `parser` with the buffers of another one, and with what the scan of a body works on. -/
def HttpParser.withBody (parser other : HttpParser) : HttpParser :=
  { parser with
    namebuf := other.namebuf
    msgbuf := other.msgbuf
    bufsize := other.bufsize
    transferLength := other.transferLength
    chunkState := other.chunkState
    chunkOffset := other.chunkOffset
    complete := other.complete }

def SameHeader (p q : HttpParser) : Prop :=
  q = p.withBody q ∧ (p.headerState = .headerValue → p.name = q.name)

theorem sameHeader_equivalence : Equivalence SameHeader where
  refl := fun _ => ⟨rfl, fun _ => rfl⟩
  symm := by
    rintro p q ⟨hq, hname⟩
    rw [hq] at hname ⊢
    exact ⟨rfl, fun h => (hname h).symm⟩
  trans := by
    rintro p q r ⟨hq, hname⟩ ⟨hr, hname'⟩
    have hstate : q.headerState = p.headerState := by rw [hq]; rfl
    refine ⟨?_, fun h => (hname h).trans (hname' (hstate.trans h))⟩
    rw [hr, hq]
    rfl

theorem SameScan.sameHeader {p q : HttpParser} (h : SameScan p q) : SameHeader p q := by
  refine ⟨?_, h.2⟩
  rw [h.1]
  rfl

theorem SameHeader.headerState_eq {p q : HttpParser} (h : SameHeader p q) :
    q.headerState = p.headerState := by
  rw [h.1]
  rfl

theorem SameHeader.headerList_eq {p q : HttpParser} (h : SameHeader p q) :
    q.headerList = p.headerList := by
  rw [h.1]
  rfl

theorem sameHeader_startBody {p : HttpParser} (h : p.headerState = .headerComplete) :
    SameHeader p (startBody p) := by
  refine ⟨?_, fun hvalue => by rw [h] at hvalue; cases hvalue⟩
  unfold startBody
  split_ifs <;> rfl

theorem sameHeader_bodyEnd {p : HttpParser} (hp : BodyReady p) : SameHeader p (bodyEnd p).2.2 := by
  obtain ⟨state, offset, hframe⟩ := bodyEnd_frame hp
  rw [hframe]
  exact ⟨rfl, fun _ => rfl⟩

/-- `p` has been fed `stream` since it was `fresh`. A scan of the stream from the start asks for more,
and one that goes on from `p` ends like it; or it has found the header, and `p` has read that. -/
inductive Resumes (fresh : HttpParser) (stream : Bytes) (p : HttpParser) : Prop
  | reading (live : HeaderLive p) (message : p.msgbuf = stream)
      (more : (headerMachine.run stream fresh).1 = .more)
      (agree : ∀ tail, Agree SameScan (headerMachine.run (stream ++ tail) fresh)
        (headerMachine.run (stream ++ tail) p))
  | done (complete : p.headerState = .headerComplete)
      (stop : (headerMachine.run stream fresh).1 = .stop 1)
      (same : SameHeader (headerMachine.run stream fresh).2 p)

section Resumes

variable {isResp zeroBody : Bool} {fresh p : HttpParser} {stream : Bytes}

theorem resumes_freshParser (isResp zeroBody : Bool) (memory : HttpParser) :
    Resumes (freshParser isResp zeroBody memory) [] (freshParser isResp zeroBody memory) := by
  refine .reading ?_ (waiting_freshParser isResp zeroBody memory).message ?_
    fun tail => ⟨rfl, sameScan_refl _⟩
  · cases zeroBody <;> exact HeaderState.noConfusion
  · cases zeroBody <;> rfl

theorem sameHeader_append (hp : Between isResp zeroBody p) (buf : Bytes) :
    SameHeader (callEnd (appendBytes buf p)).2.2 (httpParserAppendMessage buf p).2.2 := by
  rw [append_eq hp.incomplete, giveBack]
  split_ifs <;> exact ⟨rfl, fun _ => rfl⟩

theorem Resumes.scan (live : HeaderLive p) (message : p.msgbuf = stream)
    (agree : ∀ tail, Agree SameScan (headerMachine.run (stream ++ tail) fresh)
      (headerMachine.run (stream ++ tail) p)) (hp : Between isResp zeroBody p) (buf tail : Bytes) :
    Agree SameScan (headerMachine.run (stream ++ buf ++ tail) fresh)
      (headerMachine.run (stream ++ buf ++ tail) (appendBytes buf p)) := by
  have hready : headerMachine.Ready HeaderLive (stream ++ buf ++ tail) p := by
    have hoffset := ((hp.ready.ready live).append buf).append tail
    rwa [message] at hoffset
  have hagree := agree (buf ++ tail)
  rw [← List.append_assoc] at hagree
  have hsame := Machine.run_congr headerMachine_resumable (sameScan_appendBytes p buf) hready
  exact ⟨hagree.1.trans hsame.1, sameScan_equivalence.trans hagree.2 hsame.2⟩

theorem appendBytes_live (buf : Bytes) (live : HeaderLive p) : HeaderLive (appendBytes buf p) :=
  headerMachine_resumable.live_of_rel (sameScan_appendBytes p buf) live

/-- After a call the parser has read what a scan of the stream so far reads, and it goes on only where
that scan would. -/
theorem Resumes.append (buf : Bytes) (h : Resumes fresh stream p) (hp : Between isResp zeroBody p)
    (hfresh : headerMachine.Ready HeaderLive stream fresh) :
    SameHeader (headerMachine.run (stream ++ buf) fresh).2 (httpParserAppendMessage buf p).2.2 ∧
      ((httpParserAppendMessage buf p).1 = 0 →
        Resumes fresh (stream ++ buf) (httpParserAppendMessage buf p).2.2) ∧
      ((httpParserAppendMessage buf p).1 ≠ 0 →
        (headerMachine.run (stream ++ buf) fresh).1 ≠ .more) := by
  have hready := (hp.appendBytes buf).ready
  have hlast := sameHeader_append hp buf
  rw [append_code _ hp]
  cases h with
  | done complete stop same =>
      have hcomplete : (appendBytes buf p).headerState = .headerComplete := by
        rw [(sameScan_appendBytes p buf).1]
        exact complete
      have hstop := Machine.run_append_of_stop headerMachine_resumable buf hfresh (by rw [stop]; simp)
      have hbody := sameHeader_bodyEnd (hready.body hcomplete)
      rw [callEnd_of_body hcomplete] at hlast
      have hsame : SameHeader (headerMachine.run (stream ++ buf) fresh).2
          (httpParserAppendMessage buf p).2.2 := by
        rw [hstop]
        exact sameHeader_equivalence.trans same (sameHeader_equivalence.trans
          (sameScan_appendBytes p buf).sameHeader (sameHeader_equivalence.trans hbody hlast))
      refine ⟨hsame, fun _ => .done ?_ (by rw [hstop]; exact stop) hsame,
        fun _ => by rw [hstop, stop]; simp⟩
      exact (sameHeader_equivalence.trans hbody hlast).headerState_eq.trans hcomplete
  | reading live message more agree =>
      have hlive := appendBytes_live buf live
      have hmessage : (appendBytes buf p).msgbuf = stream ++ buf := by
        rw [appendBytes_msgbuf, message]
      have hscan := Resumes.scan live message agree hp buf []
      rw [List.append_nil] at hscan
      have hrun := header_run_cases (hready.ready hlive)
      have hstart := hready.ready hlive
      rw [hmessage] at hrun hstart
      rcases hrun with hmore | ⟨hstop, hcomplete⟩ | hbad
      · have hend := callEnd_of_more hlive (by rw [hmessage]; exact hmore)
        rw [hmessage] at hend
        rw [hend] at hlast ⊢
        refine ⟨sameHeader_equivalence.trans hscan.2.sameHeader hlast, fun _ => ?_,
          fun hne => absurd rfl hne⟩
        have hnext := Machine.ready_run_of_more headerMachine_resumable hstart hmore
        rw [append_of_zero hp (by rw [hend]), hend]
        refine .reading hnext.1 ((header_run_msgbuf hstart).trans hmessage) (hscan.1.trans hmore)
          fun tail => ?_
        have hwhole := Resumes.scan live message agree hp buf tail
        have hresume := Machine.run_append_of_more headerMachine_resumable tail hstart hmore
        exact ⟨hwhole.1.trans hresume.1, sameScan_equivalence.trans hwhole.2 hresume.2⟩
      · have hend := callEnd_of_stop hlive (by rw [hmessage]; exact hstop)
        have hbody := sameHeader_bodyEnd
          (startBody_ready (header_run_inside hready hlive (by rw [hmessage]; exact hstop)))
        rw [hmessage] at hend hbody
        rw [hend] at hlast
        have hbehind := sameHeader_equivalence.trans (sameHeader_startBody hcomplete)
          (sameHeader_equivalence.trans hbody hlast)
        have hsame := sameHeader_equivalence.trans hscan.2.sameHeader hbehind
        exact ⟨hsame, fun _ => .done (hbehind.headerState_eq.trans hcomplete) (hscan.1.trans hstop)
          hsame, fun _ => by rw [hscan.1, hstop]; simp⟩
      · have hend := callEnd_of_bad hlive (by rw [hmessage]; exact hbad)
        rw [hmessage] at hend
        rw [hend] at hlast ⊢
        refine ⟨sameHeader_equivalence.trans hscan.2.sameHeader hlast, fun hcode => ?_,
          fun _ => by rw [hscan.1, hbad]; simp⟩
        simp at hcode

theorem Resumes.feed {isResp zeroBody : Bool} {fresh : HttpParser}
    (hfresh : headerMachine.Ready HeaderLive [] fresh) :
    ∀ (fragments : List Bytes) {stream : Bytes} {p : HttpParser}, Resumes fresh stream p →
      Between isResp zeroBody p → SameHeader (headerMachine.run stream fresh).2 p →
      SameHeader (headerMachine.run (stream ++ fragments.flatten) fresh).2
        (feed fragments p).parser := by
  intro fragments
  induction fragments with
  | nil =>
      intro stream p _ _ hsame
      rw [List.flatten_nil, List.append_nil]
      exact hsame
  | cons f rest ih =>
      intro stream p h hp _
      have hstream : ∀ message, headerMachine.Ready HeaderLive message fresh := fun message =>
        hfresh.append message
      obtain ⟨hsame, hzero, hstop⟩ := h.append f hp (hstream stream)
      rw [List.flatten_cons, ← List.append_assoc]
      by_cases hcode : (httpParserAppendMessage f p).1 = 0
      · rw [feed_of_zero hcode]
        have hend : (callEnd (appendBytes f p)).1 = 0 := by rw [← append_code _ hp, hcode]
        have hnext : Between isResp zeroBody (httpParserAppendMessage f p).2.2 := by
          rw [append_of_zero hp hend]
          exact (hp.appendBytes f).callEnd hend
        exact ih (hzero hcode) hnext hsame
      · rw [feed_of_ne_zero hcode, Machine.run_append_of_stop headerMachine_resumable rest.flatten
          (hstream _) (hstop hcode)]
        exact hsame

end Resumes

theorem freshParser_ready (isResp zeroBody : Bool) (memory : HttpParser) (message : Bytes) :
    headerMachine.Ready HeaderLive message (freshParser isResp zeroBody memory) := by
  cases zeroBody <;> exact ⟨HeaderState.noConfusion, Nat.zero_le _⟩

theorem sameHeader_feed (isResp zeroBody : Bool) (memory : HttpParser) (fragments : List Bytes) :
    SameHeader (headerMachine.run fragments.flatten (freshParser isResp zeroBody memory)).2
      (feed fragments (freshParser isResp zeroBody memory)).parser := by
  have hstart : SameHeader (headerMachine.run [] (freshParser isResp zeroBody memory)).2
      (freshParser isResp zeroBody memory) := by
    cases zeroBody <;> exact sameHeader_equivalence.refl _
  have hfeed := Resumes.feed (freshParser_ready isResp zeroBody memory []) fragments
    (resumes_freshParser isResp zeroBody memory) (between_freshParser isResp zeroBody memory) hstart
  rw [List.nil_append] at hfeed
  exact hfeed

/-- The stream starts with this head, and there is a byte behind it. -/
def Head.Opens (head : Head) (stream : Bytes) : Prop := ∃ rest, rest ≠ [] ∧ stream = head.text ++ rest

section Fields

variable {message : Bytes} {p : HttpParser}

theorem HeadRead.entries (h : HeadRead message p) :
    p.headerList = [] ∨ ∃ head : Head, head.Opens message ∧
      p.headerList.map HeaderLine.pair = head.entries := by
  cases h with
  | startLine empties rest hmessage hoffset hstate unread => exact Or.inl unread.list
  | headerName head rest hmessage hoffset hstate stored behind =>
      rcases behind with hnone | hrest
      · left
        have hlist := stored.list
        rw [Head.entries, hnone, List.map_nil, List.map_eq_nil_iff] at hlist
        exact hlist
      · exact Or.inr ⟨head, ⟨rest, hrest, hmessage⟩, stored.list⟩
  | headerValue head f rest hmessage hoffset hstate stored hname =>
      exact Or.inr ⟨head, ⟨_, by simp, hmessage⟩, stored.list⟩
  | headerComplete head rest hmessage hoffset hstate stored =>
      exact Or.inr ⟨head, ⟨_, by simp [crlf], hmessage⟩, stored.list⟩

/-- A step of the header loop stores nothing, or one header of bounded length. -/
theorem parseHeaderStep_headerList_cases (p : HttpParser) (l : Bytes) :
    (parseHeaderStep p l).2.headerList = p.headerList
      ∨ ∃ value, value.length < httpHeaderValueMax
        ∧ (parseHeaderStep p l).2.headerList = (httpParserAddHeader p.name value p).headerList := by
  unfold parseHeaderStep
  split
  · left
    rcases parseStartLine_reads l p with ⟨rest, -, heq⟩ | ⟨content, parts, rest, -, -, heq⟩ | heq
    · rw [heq]
    · rw [heq, afterStartLine]
      cases p.isResp <;> rfl
    · rw [heq]
  · rcases parseHeaderValue_cases l p with ⟨content, rest, hround, heq⟩ | ⟨-, heq⟩ | ⟨-, heq⟩
    · obtain ⟨blanks, body, -, -, -, -, rfl, hlt, -⟩ := valueRound_eq_value_iff.mp hround
      refine .inr ⟨trimRight body, (isPrefix_trimRight body).length_le.trans_lt hlt, ?_⟩
      rw [heq, matchMessageHeader_eq]
      exact congrArg (· ++ _) (actOnHeader_lengths (p := p) p.name (trimRight body)).1
    · rw [heq]
      exact .inl rfl
    · rw [heq]
      exact .inl rfl
  · left
    unfold parseHeaderName
    dsimp only
    split
    · rfl
    · split <;> dsimp only <;> split_ifs <;> rfl

theorem parseHeaderStep_headerList (p : HttpParser) (l : Bytes) :
    p.headerList <+: (parseHeaderStep p l).2.headerList := by
  obtain heq | ⟨value, -, heq⟩ := parseHeaderStep_headerList_cases p l
  · rw [heq]
  · rw [heq]
    exact List.prefix_append ..

theorem header_run_headerList (hp : headerMachine.Ready HeaderLive message p) :
    p.headerList <+: (headerMachine.run message p).2.headerList :=
  Machine.run_preserves headerMachine_resumable
    (P := fun q => p.headerList <+: q.headerList)
    (fun q l hq _ => hq.trans (parseHeaderStep_headerList q l)) hp List.prefix_rfl

end Fields

section Fresh

variable (isResp zeroBody : Bool) (memory : HttpParser)

theorem headRead_freshParser (message : Bytes) :
    HeadRead message (freshParser isResp zeroBody memory) := by
  refine .startLine 0 message rfl ?_ ?_ (unread_freshParser isResp zeroBody memory)
  · cases zeroBody <;> rfl
  · cases zeroBody <;> rfl

theorem fed_entries (fragments : List Bytes) :
    (feed fragments (freshParser isResp zeroBody memory)).parser.headerList = [] ∨
    ∃ head : Head, head.Opens fragments.flatten ∧
      (feed fragments (freshParser isResp zeroBody memory)).parser.headerList.map HeaderLine.pair
        = head.entries := by
  rw [(sameHeader_feed isResp zeroBody memory fragments).headerList_eq]
  exact ((headRead_freshParser isResp zeroBody memory _).run
    (freshParser_ready isResp zeroBody memory _)).entries

theorem entries_prefix_fed {fragments : List Bytes} {head : Head} (h : head.Opens fragments.flatten) :
    head.entries <+:
      (feed fragments (freshParser isResp zeroBody memory)).parser.headerList.map HeaderLine.pair := by
  obtain ⟨rest, hrest, hmessage⟩ := h
  obtain ⟨q, hrun, hq⟩ := run_head (freshParser_ready isResp zeroBody memory fragments.flatten)
    (by cases zeroBody <;> rfl) (by cases zeroBody <;> rfl)
    (unread_freshParser isResp zeroBody memory) hrest hmessage
  rw [(sameHeader_feed isResp zeroBody memory fragments).headerList_eq, hrun, ← hq.stored.list]
  exact (header_run_headerList hq.ready).map _

end Fresh

/-- What one expects of a header that has been parsed. -/
structure HeaderLine.WellFormed (line : HeaderLine) : Prop where
  nameShort : line.name.length ≤ 63
  plainName : charColon ∉ line.name ∧ charNul ∉ line.name ∧ charCr ∉ line.name ∧ charLf ∉ line.name
  valueShort : line.value.length ≤ 8191
  plainValue : charNul ∉ line.value ∧ charCr ∉ line.value
  leading : line.value.head?.any isBlank = false
  trailing : line.value.getLast?.any isBlank = false

instance : DecidablePred HeaderLine.WellFormed := fun line =>
  decidable_of_iff (line.name.length ≤ 63 ∧ (charColon ∉ line.name ∧ charNul ∉ line.name ∧
      charCr ∉ line.name ∧ charLf ∉ line.name) ∧ line.value.length ≤ 8191 ∧
      (charNul ∉ line.value ∧ charCr ∉ line.value) ∧ line.value.head?.any isBlank = false ∧
      line.value.getLast?.any isBlank = false)
    ⟨fun h => ⟨h.1, h.2.1, h.2.2.1, h.2.2.2.1, h.2.2.2.2.1, h.2.2.2.2.2⟩,
      fun h => ⟨h.nameShort, h.plainName, h.valueShort, h.plainValue, h.leading, h.trailing⟩⟩

theorem getLast?_trimRight (value : Bytes) : (trimRight value).getLast?.any isBlank = false := by
  rw [trimRight, List.getLast?_reverse]
  have hnot := List.head?_dropWhile_not isBlank value.reverse
  cases hhead : (value.reverse.dropWhile isBlank).head? with
  | none => rfl
  | some c =>
      rw [hhead] at hnot
      simpa using hnot

theorem head?_of_prefix {l m : Bytes} (h : l <+: m) (hm : m.head?.any isBlank = false) :
    l.head?.any isBlank = false := by
  obtain ⟨rest, rfl⟩ := h
  cases l with
  | nil => rfl
  | cons c l => exact hm

/-- A stored field lacks at most one thing: its name may run over a line end. -/
theorem wellFormed_iff_of_pair {line : HeaderLine} {f : Field} (h : line.pair = f.entry) :
    line.WellFormed ↔ charCr ∉ f.name ∧ charLf ∉ f.name := by
  have hname : line.name = f.name := congrArg Prod.fst h
  have hvalue : line.value = trimRight f.body := congrArg Prod.snd h
  constructor
  · intro hline
    rw [← hname]
    exact ⟨hline.plainName.2.2.1, hline.plainName.2.2.2⟩
  · rintro ⟨hcr, hlf⟩
    have hbody := isPrefix_trimRight f.body
    refine ⟨?_, ?_, ?_, ?_, ?_, ?_⟩
    · rw [hname]
      exact Nat.le_of_lt_succ f.short
    · rw [hname]
      exact ⟨f.plainName.1, f.plainName.2, hcr, hlf⟩
    · rw [hvalue]
      exact hbody.length_le.trans (Nat.le_of_lt_succ f.fits)
    · rw [hvalue]
      exact ⟨fun hmem => f.plainBody.2 (hbody.mem hmem), fun hmem => f.plainBody.1 (hbody.mem hmem)⟩
    · rw [hvalue]
      exact head?_of_prefix hbody f.leading
    · rw [hvalue]
      exact getLast?_trimRight f.body

/-- All stored headers are well formed exactly when no field of the stream has a line end before its
colon. -/
theorem wellFormed_iff_oneLine (isResp zeroBody : Bool) (memory : HttpParser)
    (fragments : List Bytes) :
    (∀ line ∈ (feed fragments (freshParser isResp zeroBody memory)).parser.headerList,
        line.WellFormed) ↔
      ∀ head : Head, head.Opens fragments.flatten →
        ∀ f ∈ head.fields, charCr ∉ f.name ∧ charLf ∉ f.name := by
  constructor
  · intro hlines head hhead f hf
    have hstored := entries_prefix_fed isResp zeroBody memory hhead
    obtain ⟨line, hline, hpair⟩ := List.mem_map.mp (hstored.mem (List.mem_map_of_mem hf))
    exact (wellFormed_iff_of_pair hpair).mp (hlines line hline)
  · intro hheads line hline
    rcases fed_entries isResp zeroBody memory fragments with hnone | ⟨head, hopens, hentries⟩
    · rw [hnone] at hline
      cases hline
    · have hmem : line.pair ∈ head.entries := hentries ▸ List.mem_map_of_mem hline
      obtain ⟨f, hf, hpair⟩ := List.mem_map.mp hmem
      exact (wellFormed_iff_of_pair hpair.symm).mpr (hheads head hopens f hf)

def mergedResponse : Bytes := bytesOf "HTTP/1.1 200 OK\r\nFoo\r\nBar: x\r\n\r\n"

/-- The line is not refused: it becomes part of the name of the next header. -/
theorem not_wellFormed_mergedResponse :
    let fed := feed [mergedResponse] (freshParser true false zeroedParser)
    fed.code = 0 ∧ fed.parser.headerList.map HeaderLine.pair
        = [(bytesOf "Foo\r\nBar", bytesOf "x")] ∧
      ¬ ∀ line ∈ fed.parser.headerList, line.WellFormed := by
  decide +kernel

structure Segment where
  bytes : Bytes
  nonempty : bytes ≠ []
  plain : charCr ∉ bytes ∧ charNul ∉ bytes
  leading : bytes.head?.any isBlank = false
  trailing : bytes.getLast?.any isBlank = false

/-- The next line of a folded value, which starts with at least one blank. -/
structure Continuation where
  blanks : Bytes
  segment : Segment
  nonempty : blanks ≠ []
  blank : ∀ c ∈ blanks, isBlank c = true

def Continuation.text (c : Continuation) : Bytes := crlf ++ (c.blanks ++ c.segment.bytes)

def joined (first : Segment) (continuations : List Continuation) : Bytes :=
  first.bytes ++ continuations.flatMap fun c => charSpace :: c.segment.bytes

/-- A header whose value goes on for at least one more line. -/
structure FoldedHeader extends FieldName where
  blanks : Bytes
  first : Segment
  continuations : List Continuation
  blank : ∀ c ∈ blanks, isBlank c = true
  folded : continuations ≠ []
  fits : (joined first continuations).length < httpHeaderValueMax

def FoldedHeader.text (h : FoldedHeader) : Bytes :=
  h.name ++ charColon :: (h.blanks ++ (h.first.bytes ++ (h.continuations.flatMap Continuation.text
    ++ crlf)))

def FoldedHeader.entry (h : FoldedHeader) : Bytes × Bytes := (h.name, joined h.first h.continuations)

/-- The folded header behind `head` is one entry, and the fields behind it are the next ones. -/
def ReadsFolded (head : Head) (h : FoldedHeader) (rest : Bytes) (list : List HeaderLine) : Prop :=
  ∀ (fields : List Field) (behind : Bytes), behind ≠ [] →
    rest = fields.flatMap Field.text ++ behind →
    head.entries ++ h.entry :: fields.map Field.entry <+: list.map HeaderLine.pair

section Folded

variable (h : FoldedHeader)

theorem FoldedHeader.length_first_lt :
    h.first.bytes.length < (joined h.first h.continuations).length := by
  obtain ⟨c, rest, hcons⟩ := List.exists_cons_of_ne_nil h.folded
  rw [joined, hcons, List.flatMap_cons, List.length_append, List.length_append, List.length_cons]
  omega

/-- The first line by itself. -/
def FoldedHeader.firstLine : Field where
  toFieldName := h.toFieldName
  blanks := h.blanks
  body := h.first.bytes
  blank := h.blank
  leading := h.first.leading
  fits := lt_trans h.length_first_lt h.fits
  plainBody := h.first.plain

theorem FoldedHeader.text_eq :
    ∃ behind, behind ≠ [] ∧ h.text = h.firstLine.text ++ behind := by
  obtain ⟨c, rest, hcons⟩ := List.exists_cons_of_ne_nil h.folded
  refine ⟨c.blanks ++ (c.segment.bytes ++ (rest.flatMap Continuation.text ++ crlf)), ?_, ?_⟩
  · simp [c.nonempty]
  · rw [FoldedHeader.text, Field.text, FoldedHeader.firstLine, hcons, List.flatMap_cons,
      Continuation.text]
    simp only [List.append_assoc, List.cons_append]

/-- A folded header is never stored as one: what is stored is its first line. -/
theorem not_readsFolded (isResp zeroBody : Bool) (memory : HttpParser) (fragments : List Bytes)
    (head : Head) (rest : Bytes) (hstream : fragments.flatten = head.text ++ (h.text ++ rest))
    (hrest : rest.head?.any (fun c => !isBlank c) = true) :
    ¬ ReadsFolded head h rest
      (feed fragments (freshParser isResp zeroBody memory)).parser.headerList := by
  intro hreads
  have hne : rest ≠ [] := by
    rintro rfl
    cases hrest
  have hexpected := hreads [] rest hne rfl
  obtain ⟨behind, hbehind, htext⟩ := h.text_eq
  have hopens : (head.add h.firstLine).Opens fragments.flatten := by
    refine ⟨behind ++ rest, by simp [hbehind], ?_⟩
    rw [hstream, Head.text_add, htext]
    simp only [List.append_assoc]
  have hstored := entries_prefix_fed isResp zeroBody memory hopens
  rw [Head.entries_add] at hstored
  have hsame : head.entries ++ [h.firstLine.entry] = head.entries ++ [h.entry] :=
    List.IsPrefix.eq_of_length (List.prefix_of_prefix_length_le hstored hexpected (by simp)) (by simp)
  have hentry : h.firstLine.entry = h.entry := by simpa using hsame
  have hvalue : trimRight h.first.bytes = joined h.first h.continuations :=
    congrArg Prod.snd hentry
  have hlength := h.length_first_lt
  rw [← hvalue, trimRight_of_trailing h.first.trailing] at hlength
  exact lt_irrefl _ hlength

end Folded

theorem isBlank_of_mem_space : ∀ c ∈ [charSpace], isBlank c = true :=
  List.forall_mem_singleton.mpr (by decide)

/-- `A: b`, continued with a blank and `c`, behind the start line of a request. -/
def foldedHeader : FoldedHeader where
  name := bytesOf "A"
  short := by decide
  notEmptyLine := by decide
  plainName := by decide
  blanks := [charSpace]
  first := ⟨bytesOf "b", by decide, by decide, by decide, by decide⟩
  continuations := [⟨[charSpace], ⟨bytesOf "c", by decide, by decide, by decide, by decide⟩,
    by decide, isBlank_of_mem_space⟩]
  blank := isBlank_of_mem_space
  folded := by simp
  fits := by decide

def foldedHead : Head where
  empties := 0
  content := bytesOf "GET / HTTP/1.1"
  parts := (bytesOf "GET", bytesOf "/", bytesOf "HTTP/1.1")
  fields := []
  start := ⟨by decide, by decide, by decide⟩

def foldedRequest : Bytes := bytesOf "GET / HTTP/1.1\r\nA: b\r\n c\r\nD: e\r\n\r\n"

theorem not_readsFolded_foldedRequest :
    foldedRequest = foldedHead.text ++ (foldedHeader.text ++ bytesOf "D: e\r\n\r\n") ∧
    ¬ ReadsFolded foldedHead foldedHeader (bytesOf "D: e\r\n\r\n")
      (feed [foldedRequest] (freshParser false false zeroedParser)).parser.headerList :=
  ⟨by decide, not_readsFolded foldedHeader false false zeroedParser [foldedRequest] foldedHead
    (bytesOf "D: e\r\n\r\n") (by decide) (by decide)⟩

/-- The value ends with its first line, and the second line runs into the name of the next header. -/
theorem headers_foldedRequest :
    let fed := feed [foldedRequest] (freshParser false false zeroedParser)
    fed.code = 1 ∧ fed.parser.headerList.map HeaderLine.pair
        = [(bytesOf "A", bytesOf "b"), (bytesOf " c\r\nD", bytesOf "e")] ∧
      ¬ ReadsFolded foldedHead foldedHeader (bytesOf "D: e\r\n\r\n") fed.parser.headerList := by
  refine ⟨by decide +kernel, by decide +kernel, fun hreads => ?_⟩
  have hexpected := hreads [] (bytesOf "D: e\r\n\r\n") (by decide) rfl
  revert hexpected
  decide +kernel

end WorkflowModel.Http
