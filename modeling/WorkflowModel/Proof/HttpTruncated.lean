import WorkflowModel.Proof.HttpChunkCursor

/-!
# The chunk cursor on a message that was cut off

After an error the message is closed as it is, and the cursor reads size lines behind which the parser has
not seen the chunk. It takes them at their word. So it stays inside the body exactly when every chunk
whose size it reads is there, with the two bytes behind it.
-/

namespace WorkflowModel.Http

open WorkflowModel Resume

theorem ReadChunk.Whole.append_nul {c : ReadChunk} {text : Bytes} (h : c.Whole text) :
    c.Whole (text ++ [charNul]) where
  value := (strtol_append_nul (by decide) text []).trans h.value
  nonempty := h.nonempty
  extension := h.extension
  skipped := h.skipped

/-- Whole chunks and then no number, or the number zero. -/
inductive ReadsWhole : Bytes → Prop where
  | ends {rest : Bytes} (zero : (strtol 16 rest).1 = 0) : ReadsWhole rest
  | chunk {c : ReadChunk} {rest : Bytes} (whole : c.Whole (c.bytes ++ rest)) (more : ReadsWhole rest) :
      ReadsWhole (c.bytes ++ rest)

section Call

variable {cursor : HttpChunkCursor} {before : Bytes}

/-- All calls of the cursor up to the last stay below `bound`, and there is a last. -/
def HttpChunkCursor.Stays (cursor : HttpChunkCursor) (bound : Nat) : Prop :=
  ∃ calls found, cursor.ranges calls = some found ∧ ∀ range ∈ found, range.1 + range.2 ≤ bound

theorem stays_of_done {next : HttpChunkCursor} {bound : Nat} (h : cursor.next = (.done, next)) :
    cursor.Stays bound :=
  ⟨1, [], by simp [HttpChunkCursor.ranges, h], by simp⟩

theorem stays_iff_of_chunk {next : HttpChunkCursor} {start size bound : Nat}
    (h : cursor.next = (.chunk start size, next)) :
    cursor.Stays bound ↔ start + size ≤ bound ∧ next.Stays bound := by
  constructor
  · rintro ⟨calls, found, hfound, hinside⟩
    cases calls with
    | zero => cases hfound
    | succ calls =>
        rw [ranges_succ h] at hfound
        obtain ⟨rest, hrest, rfl⟩ := Option.map_eq_some_iff.mp hfound
        obtain ⟨hfirst, hothers⟩ := List.forall_mem_cons.mp hinside
        exact ⟨hfirst, calls, rest, hrest, hothers⟩
  · rintro ⟨hfirst, calls, rest, hrest, hothers⟩
    exact ⟨calls + 1, _, by rw [ranges_succ h, hrest]; rfl, List.forall_mem_cons.mpr ⟨hfirst, hothers⟩⟩

theorem not_stays_of_fault {next : HttpChunkCursor} {bound : Nat} (h : cursor.next = (.fault, next)) :
    ¬ cursor.Stays bound := by
  rintro ⟨calls, found, hfound, -⟩
  cases calls with
  | zero => cases hfound
  | succ calls => simp [HttpChunkCursor.ranges, h] at hfound

theorem not_stays_of_outside {bound : Nat} (hchunked : cursor.chunked = true)
    (hrunning : cursor.ended = false) (h : (cursor.body.getD []).length ≤ cursor.pos) :
    ¬ cursor.Stays bound := by
  have hfault : cursor.next = (.fault, cursor) := by
    simp [HttpChunkCursor.next, hchunked, hrunning, h]
  exact not_stays_of_fault hfault

theorem exists_whole_of_room {rest number extension more : Bytes} {second : UInt8} {size : Nat}
    (hrest : rest = number ++ (extension ++ charCr :: second :: more))
    (hvalue : strtol 16 rest = ((size : Int), number.length)) (hsize : size ≠ 0)
    (hextension : charCr ∉ extension ∧ charNul ∉ extension) (hroom : size + 2 ≤ more.length) :
    ∃ (c : ReadChunk) (tail : Bytes), rest = c.bytes ++ tail ∧ c.Whole rest := by
  have hdata : (more.take size).length = size := List.length_take_of_le (by omega)
  have hskipped : ((more.drop size).take 2).length = 2 := by
    rw [List.length_take, List.length_drop]
    omega
  let c : ReadChunk := ⟨number, extension, second, more.take size, (more.drop size).take 2⟩
  refine ⟨c, (more.drop size).drop 2, ?_, ?_, ?_, hextension, hskipped⟩
  · rw [ReadChunk.bytes_append, List.append_assoc, List.take_append_drop, List.take_append_drop, hrest]
  · rw [hvalue, hdata]
  · exact List.ne_nil_of_length_pos (by rw [hdata]; omega)

/-- A cursor that stays inside the body has read a whole chunk behind every number. -/
theorem StandsAt.exists_whole {rest : Bytes} (h : StandsAt cursor before (rest ++ [charNul]))
    (hsmall : (before ++ rest).length < 2 ^ 63) (hvalue : (strtol 16 rest).1 ≠ 0)
    (hstays : cursor.Stays (before ++ rest).length) :
    ∃ (c : ReadChunk) (tail : Bytes), rest = c.bytes ++ tail ∧ c.Whole rest := by
  obtain ⟨number, behind, hrest, hnumber, -⟩ := exists_front_of_strtol (by decide)
    (strtol_snd_ne_zero hvalue)
  have hne : rest ++ [charNul] ≠ [] := by simp
  have hsame : strtol 16 (rest ++ [charNul]) = strtol 16 rest := strtol_append_nul (by decide) rest []
  have hnonzero : sizeOfInt (strtol 16 (rest ++ [charNul])).1 ≠ 0 := by
    rw [hsame]
    exact sizeOfInt_strtol_ne_zero hvalue
  have hdrop : (rest ++ [charNul]).drop (strtol 16 (rest ++ [charNul])).2 = behind ++ [charNul] := by
    rw [hsame, ← hnumber, hrest, List.append_assoc, List.drop_left]
  cases hsearch : strchr charCr (behind ++ [charNul]) with
  | none =>
      have hfault := h.next_of_hidden hne hnonzero (by rw [hdrop, hsearch])
      exact absurd hstays (not_stays_of_fault hfault)
  | some index =>
      have hnext := h.next_of_found hne hnonzero (by rw [hdrop, hsearch])
      rw [hsame, ← hnumber] at hnext
      obtain ⟨hinside, hgoes⟩ := (stays_iff_of_chunk hnext).mp hstays
      obtain ⟨extension, r, hsplit, rfl, hfree, hplain⟩ := exists_of_strchr hsearch
      -- the carriage return is not the NUL behind the body
      obtain ⟨after, rfl⟩ : ∃ after, behind = extension ++ charCr :: after := by
        obtain rfl | ⟨after, last, rfl⟩ := List.eq_nil_or_concat r
        · exact absurd (List.append_inj' hsplit rfl).2 (by decide)
        · rw [List.concat_eq_append, ← List.cons_append, ← List.append_assoc] at hsplit
          exact ⟨after, (List.append_inj' hsplit rfl).1⟩
      generalize hsize : sizeOfInt (strtol 16 rest).1 = size at hinside hgoes hnext
      have hlength : rest.length = number.length + (extension.length + (after.length + 1)) := by
        rw [hrest]
        simp
      have hmany : size + 1 ≤ after.length := by
        rw [List.length_append] at hinside
        omega
      have hnumberValue : (strtol 16 rest).1 = size := by
        apply sizeOfInt_strtol hsize
        rw [List.length_append] at hsmall
        omega
      cases after with
      | nil => simp at hmany
      | cons second more =>
          rw [List.length_cons] at hmany hlength
          -- with fewer than two bytes behind the data the next call starts outside
          have hroom : size + 2 ≤ more.length := by
            by_contra hfew
            refine absurd hgoes (not_stays_of_outside h.chunked h.running ?_)
            rw [h.memory, Option.getD_some]
            simp only [List.length_append, List.length_singleton] at hsmall ⊢
            unfold sizeAdd sizeModulus
            omega
          apply exists_whole_of_room hrest (Prod.ext hnumberValue hnumber.symm) ?_ ⟨hfree, hplain⟩ hroom
          rintro rfl
          exact hvalue hnumberValue

end Call

theorem StandsAt.stays_of_readsWhole {rest : Bytes} (hreads : ReadsWhole rest) :
    ∀ {cursor : HttpChunkCursor} {before : Bytes}, StandsAt cursor before (rest ++ [charNul]) →
      cursor.Stays (before ++ rest).length := by
  induction hreads with
  | ends zero =>
      intro cursor before h
      refine stays_of_done (h.next_of_zero (by simp) ?_)
      rw [strtol_append_nul (by decide), zero]
      decide
  | @chunk c rest whole more ih =>
      intro cursor before h
      have hwhole := whole.append_nul
      rw [List.append_assoc] at h hwhole
      refine (stays_iff_of_chunk (h.next_of_whole hwhole)).mpr ⟨?_, ?_⟩
      · have hlength := ReadChunk.length_bytes whole.skipped
        simp only [List.length_append, hlength]
        omega
      · rw [← List.append_assoc]
        exact ih h.pass

/-- By induction on the length of what is left, which every whole chunk shortens. -/
theorem StandsAt.readsWhole_of_stays : ∀ (n : Nat) {rest : Bytes}, rest.length = n →
    ∀ {cursor : HttpChunkCursor} {before : Bytes}, StandsAt cursor before (rest ++ [charNul]) →
      (before ++ rest).length < 2 ^ 63 → cursor.Stays (before ++ rest).length → ReadsWhole rest := by
  intro n
  induction n using Nat.strongRecOn with
  | ind n ih =>
      rintro rest rfl cursor before h hsmall hstays
      by_cases hzero : (strtol 16 rest).1 = 0
      · exact .ends hzero
      · obtain ⟨c, tail, rfl, hwhole⟩ := h.exists_whole hsmall hzero hstays
        have hshorter : tail.length < (c.bytes ++ tail).length := by
          rw [List.length_append, ReadChunk.length_bytes hwhole.skipped]
          omega
        have hread := hwhole.append_nul
        rw [List.append_assoc] at h hread
        rw [← List.append_assoc] at hsmall hstays
        have hgoes := ((stays_iff_of_chunk (h.next_of_whole hread)).mp hstays).2
        exact .chunk hwhole (ih _ hshorter rfl h.pass hsmall hgoes)

section Body

variable {isResp zeroBody : Bool} {p : HttpParser}

/-- A step that fails leaves the header unfinished. -/
theorem live_of_parseHeaderStep_bad {l : Bytes} (hp : HeaderLive p)
    (h : (parseHeaderStep p l).1 = .stop (-2)) : HeaderLive (parseHeaderStep p l).2 := by
  cases hstate : p.headerState with
  | startLine =>
      rw [parseHeaderStep_startLine l hstate] at h ⊢
      rcases parseStartLine_cases l p with ⟨-, heq⟩ | ⟨-, content, -, heq, -⟩ | ⟨-, -, heq⟩ | ⟨-, -, heq⟩
      · simp [heq] at h
      · simp [heq] at h
      · simp [heq] at h
      · rw [heq]
        exact hp
  | headerValue =>
      rw [parseHeaderStep_headerValue l hstate] at h ⊢
      rcases parseHeaderValue_cases l p with ⟨content, rest, -, heq⟩ | ⟨-, heq⟩ | ⟨-, heq⟩
      · simp [heq] at h
      · simp [heq] at h
      · rw [heq]
        exact hp
  | headerComplete => exact absurd hstate hp
  | headerName =>
      rw [parseHeaderStep_nameStep l (by simp [hstate]) (by simp [hstate])] at h ⊢
      rcases nameInput_cases p.namebuf l with hcrlf | ⟨hcrlf, body, rest, rfl, hlt, hcolon, hnul⟩ |
        ⟨hcrlf, hcode⟩ | ⟨hcrlf, hcode⟩
      · rw [nameStep_of_crlf hcrlf] at h
        simp at h
      · obtain ⟨namebuf, -, heq⟩ := nameStep_of_name p hcrlf hlt hcolon hnul
        simp [heq] at h
      · rw [nameStep_of_ne_one hstate hcrlf (by simp [hcode]), hcode] at h
        simp at h
      · rw [nameStep_of_ne_one hstate hcrlf (by simp [hcode])]
        exact hp

theorem live_of_header_run_bad {message : Bytes} (hp : headerMachine.Ready HeaderLive message p)
    (h : (headerMachine.run message p).1 = .stop (-2)) : HeaderLive (headerMachine.run message p).2 := by
  obtain ⟨q, l, hq, hstep⟩ := Machine.exists_step_of_run_stop headerMachine_resumable hp h
  rw [← hstep] at h ⊢
  exact live_of_parseHeaderStep_bad hq h

theorem callEnd_inside_of_complete (hp : CallReady p)
    (hcomplete : (callEnd p).2.2.headerState = .headerComplete) :
    (callEnd p).2.2.headerOffset ≤ p.msgsize := by
  by_cases hlive : HeaderLive p
  · have hready := hp.ready hlive
    rcases header_run_cases hready with hmore | ⟨hstop, -⟩ | hbad
    · rw [callEnd_of_more hlive hmore] at hcomplete
      exact absurd hcomplete (Machine.ready_run_of_more headerMachine_resumable hready hmore).1
    · have hinside := header_run_inside hp hlive hstop
      rw [callEnd_of_stop hlive hstop, bodyEnd_headerOffset (startBody_ready hinside),
        startBody_headerOffset]
      rw [HttpParser.msgsize, header_run_msgbuf hready] at hinside
      exact hinside
    · rw [callEnd_of_bad hlive hbad] at hcomplete
      exact absurd hcomplete (live_of_header_run_bad hready hbad)
  · have hdone : p.headerState = .headerComplete := not_not.mp hlive
    rw [callEnd_of_body hdone, bodyEnd_headerOffset (hp.body hdone)]
    exact hp.header

/-- What is left of a message that was refused is what the last call has left. -/
theorem exists_callEnd_of_bad :
    ∀ (fragments : List Bytes) {stream : Bytes} {p : HttpParser}, Waiting isResp zeroBody stream p →
      (feed fragments p).code ≠ 0 → (feed fragments p).code ≠ 1 →
      ∃ q, CallReady q ∧ q.msgsize ≤ (stream ++ fragments.flatten).length ∧
        (feed fragments p).parser = (callEnd q).2.2 := by
  intro fragments
  induction fragments with
  | nil =>
      intro stream p _ hzero
      exact absurd rfl hzero
  | cons f rest ih =>
      intro stream p hp hzero hone
      rw [List.flatten_cons, ← List.append_assoc]
      by_cases hcode : (httpParserAppendMessage f p).1 = 0
      · rw [feed_of_zero hcode] at hzero hone ⊢
        exact ih (waiting_append hp hcode) hzero hone
      · rw [feed_of_ne_zero hcode] at hzero hone ⊢
        have hready := (hp.between.appendBytes f).ready
        dsimp only at hzero hone ⊢
        rw [append_code _ hp.between] at hzero hone
        have hbad := ((callEnd_codes hready).resolve_left hzero).resolve_left hone
        refine ⟨appendBytes f p, hready, ?_, by rw [append_of_bad hp.between hbad]⟩
        rw [HttpParser.msgsize, appendBytes_msgbuf, hp.message, List.length_append, List.length_append,
          List.length_append]
        omega

/-- At any point the body of a chunked message lies inside the buffer. -/
theorem body_inside_fed (isResp zeroBody : Bool) (memory : HttpParser) (fragments : List Bytes)
    (hsize : fragments.flatten.length < 2 ^ 63)
    (hheader : (feed fragments (freshParser isResp zeroBody memory)).parser.headerState = .headerComplete)
    (hchunked : (feed fragments (freshParser isResp zeroBody memory)).parser.chunked = true) :
    (feed fragments (freshParser isResp zeroBody memory)).parser.headerOffset
        ≤ (feed fragments (freshParser isResp zeroBody memory)).parser.msgsize ∧
      (feed fragments (freshParser isResp zeroBody memory)).parser.msgsize < 2 ^ 63 := by
  have hwaiting := waiting_freshParser isResp zeroBody memory
  by_cases hzero : (feed fragments (freshParser isResp zeroBody memory)).code = 0
  · have hlast := waiting_feed fragments hwaiting hzero
    refine ⟨hlast.between.ready.header, ?_⟩
    rw [HttpParser.msgsize, hlast.message]
    exact hsize
  by_cases hone : (feed fragments (freshParser isResp zeroBody memory)).code = 1
  · have hfinished := finished_freshParser isResp zeroBody memory fragments hsize hone hchunked
    exact ⟨hfinished.header, hfinished.size⟩
  · obtain ⟨q, hready, hshort, hlast⟩ := exists_callEnd_of_bad fragments hwaiting hzero hone
    rw [hlast] at hheader ⊢
    have hinside := callEnd_inside_of_complete hready hheader
    rw [HttpParser.msgsize, (callEnd_inside hready).1]
    exact ⟨hinside, lt_of_le_of_lt hshort hsize⟩

theorem standsAt_closed (hheader : p.headerState = .headerComplete) (hchunked : p.chunked = true)
    (hoffset : p.headerOffset ≤ p.msgsize) (hsize : p.msgsize < 2 ^ 63) :
    StandsAt (HttpChunkCursor.init (httpParserCloseMessage p)) []
      (p.msgbuf.drop p.headerOffset ++ [charNul]) := by
  have hbody : getParsedBody (httpParserCloseMessage p)
      = some (p.msgbuf.drop p.headerOffset ++ [charNul], sizeSub p.msgsize p.headerOffset) := by
    rw [getParsedBody, httpParserGetBody, httpParserCloseMessage, hheader]
    rfl
  have hinit : HttpChunkCursor.init (httpParserCloseMessage p)
      = { body := some (p.msgbuf.drop p.headerOffset ++ [charNul])
          bodyLen := sizeSub p.msgsize p.headerOffset, pos := 0, chunked := p.chunked
          ended := false } := by
    rw [HttpChunkCursor.init, hbody]
    rfl
  rw [hinit]
  refine ⟨rfl, rfl, hchunked, rfl, ?_⟩
  rw [List.nil_append, List.length_append, List.length_drop, List.length_singleton]
  change p.msgsize - _ + 1 < _
  unfold sizeModulus
  omega

end Body

/-- A chunked message whose header is complete is closed at any point: the cursor returns ranges inside
the body and comes to its end exactly when every chunk whose size it reads is there. -/
theorem stays_closed_iff (isResp zeroBody : Bool) (memory : HttpParser) (fragments : List Bytes)
    (hsize : fragments.flatten.length < 2 ^ 63)
    (hheader : (feed fragments (freshParser isResp zeroBody memory)).parser.headerState = .headerComplete)
    (hchunked : (feed fragments (freshParser isResp zeroBody memory)).parser.chunked = true) :
    let p := (feed fragments (freshParser isResp zeroBody memory)).parser
    (HttpChunkCursor.init (httpParserCloseMessage p)).Stays (p.msgsize - p.headerOffset)
      ↔ ReadsWhole (p.msgbuf.drop p.headerOffset) := by
  intro p
  obtain ⟨hoffset, hshort⟩ := body_inside_fed isResp zeroBody memory fragments hsize hheader hchunked
  have hstands := standsAt_closed hheader hchunked hoffset hshort
  have hlength : ([] ++ p.msgbuf.drop p.headerOffset).length = p.msgsize - p.headerOffset :=
    List.length_drop
  rw [← hlength]
  constructor
  · apply StandsAt.readsWhole_of_stays _ rfl hstands
    rw [hlength]
    exact lt_of_le_of_lt (Nat.sub_le _ _) hshort
  · intro hreads
    exact StandsAt.stays_of_readsWhole hreads hstands

def betweenFragments : List Bytes :=
  [bytesOf "HTTP/1.1 200 OK\r\nTransfer-Encoding: chunked\r\n\r\n3;a=b\r", bytesOf "\nxyz\r\n"]

theorem stays_closed_betweenFragments :
    let p := (feed betweenFragments (freshParser true false zeroedParser)).parser
    (HttpChunkCursor.init (httpParserCloseMessage p)).Stays (p.msgsize - p.headerOffset) := by
  intro p
  have hbody : p.msgbuf.drop p.headerOffset
      = ReadChunk.bytes ⟨bytesOf "3", bytesOf ";a=b", charLf, bytesOf "xyz", bytesOf "\r\n"⟩ ++ [] := by
    decide +kernel
  apply (stays_closed_iff true false zeroedParser betweenFragments (by decide +kernel)
    (by decide +kernel) (by decide +kernel)).mpr
  rw [hbody]
  exact .chunk ⟨by decide +kernel, by decide +kernel, by decide +kernel, rfl⟩ (.ends (by decide))

def cutFragments : List Bytes :=
  [bytesOf "HTTP/1.1 200 OK\r\nTransfer-Encoding: chunked\r\n\r\na\r\nxyz"]

theorem not_stays_cutFragments :
    let p := (feed cutFragments (freshParser true false zeroedParser)).parser
    p.headerState = .headerComplete ∧ p.chunked = true ∧ p.msgsize - p.headerOffset = 6
      ∧ (HttpChunkCursor.init (httpParserCloseMessage p)).next.1 = .chunk 3 10
      ∧ ¬ (HttpChunkCursor.init (httpParserCloseMessage p)).Stays (p.msgsize - p.headerOffset) := by
  intro p
  have hsize : p.msgsize - p.headerOffset = 6 := by decide +kernel
  have hnext : (HttpChunkCursor.init (httpParserCloseMessage p)).next.1 = .chunk 3 10 := by
    decide +kernel
  refine ⟨by decide +kernel, by decide +kernel, hsize, hnext, ?_⟩
  generalize HttpChunkCursor.init (httpParserCloseMessage p) = cursor at hnext ⊢
  have hcall : cursor.next = (.chunk 3 10, cursor.next.2) := by rw [← hnext]
  rw [stays_iff_of_chunk hcall, hsize]
  rintro ⟨houtside, -⟩
  exact absurd houtside (by decide)

end WorkflowModel.Http
