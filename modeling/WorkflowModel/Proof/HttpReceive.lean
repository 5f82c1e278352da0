import WorkflowModel.Proof.HttpInterim

/-!
# Interim responses in the read loop of the poller

The read loop of the poller passes the bytes behind an interim response to the next call. So the
response that follows is read as if it had come alone, in the same cut, by a parser that is new. It is
not as it was given, though: `http_parser_init` forgets that the message has no body.
-/

namespace WorkflowModel.Http

open WorkflowModel Resume

def Receipt.after (n : Nat) (receipt : Receipt) : Receipt :=
  { receipt with consumed := n + receipt.consumed }

/-- The bytes that are left of the reads when a call has used `n` bytes of the first one. -/
def unread (n : Nat) (buf : Bytes) (reads : List Bytes) : List Bytes :=
  if n < buf.length then buf.drop n :: reads else reads

/-- The reads without their first `k` bytes. -/
def dropBytes : Nat → List Bytes → List Bytes
  | _, [] => []
  | k, buf :: reads =>
      if k = 0 then buf :: reads
      else if buf.length ≤ k then dropBytes (k - buf.length) reads
      else buf.drop k :: reads

theorem dropBytes_zero (reads : List Bytes) : dropBytes 0 reads = reads := by
  cases reads <;> rfl

theorem dropBytes_of_le {k : Nat} {buf : Bytes} (reads : List Bytes) (hpositive : 0 < k)
    (h : k ≤ buf.length) : dropBytes k (buf :: reads) = unread k buf reads := by
  rw [dropBytes, if_neg (by omega), unread]
  split_ifs with hle hlt
  · omega
  · rw [Nat.sub_eq_zero_of_le h, dropBytes_zero]
  · rfl
  · omega

theorem flatten_unread {n : Nat} {buf : Bytes} (reads : List Bytes) :
    (unread n buf reads).flatten = buf.drop n ++ reads.flatten := by
  unfold unread
  split_ifs with h
  · rfl
  · rw [List.drop_of_length_le (Nat.not_lt.mp h), List.nil_append]

@[simp] theorem readsSize_cons (buf : Bytes) (reads : List Bytes) :
    readsSize (buf :: reads) = buf.length + 1 + readsSize reads := by
  simp [readsSize]

theorem readsSize_unread {n : Nat} (buf : Bytes) (reads : List Bytes) (hpositive : 0 < n) :
    readsSize (unread n buf reads) < readsSize (buf :: reads) := by
  unfold unread
  split_ifs with h
  · rw [readsSize_cons, readsSize_cons, List.length_drop]
    omega
  · rw [readsSize_cons]
    omega

section Loop

variable {fuel n : Nat} {ret : Int} {buf : Bytes} {reads : List Bytes} {resp next : HttpResponse}

theorem pollerLoop_nil (fuel : Nat) (resp : HttpResponse) :
    pollerLoop fuel [] resp = { code := 0, consumed := 0, response := resp } := by
  cases fuel <;> rfl

theorem pollerLoop_of_ne_zero (h : resp.append buf = (ret, n, next)) (hret : ret ≠ 0) :
    pollerLoop (fuel + 1) (buf :: reads) resp
      = { code := ret, consumed := n, response := next } := by
  simp [pollerLoop, h, hret]

theorem pollerLoop_of_zero (h : resp.append buf = (0, n, next)) :
    pollerLoop (fuel + 1) (buf :: reads) resp
      = (pollerLoop fuel (unread n buf reads) next).after n := by
  simp only [pollerLoop, h, ne_eq, not_true_eq_false, ↓reduceIte, unread, Receipt.after]
  split_ifs <;> rfl

theorem pollerLoop_of_more (h : resp.append buf = (0, buf.length, next)) :
    pollerLoop (fuel + 1) (buf :: reads) resp = (pollerLoop fuel reads next).after buf.length := by
  rw [pollerLoop_of_zero h, unread, if_neg (lt_irrefl _)]

theorem exists_fuel (h : readsSize (buf :: reads) ≤ fuel) :
    ∃ k, fuel = k + 1 ∧ readsSize reads ≤ k := by
  rw [readsSize_cons] at h
  exact ⟨fuel - 1, by omega, by omega⟩

theorem append_more {isResp zeroBody : Bool} {p : HttpParser} (hp : Between isResp zeroBody p)
    (hcode : (httpParserAppendMessage buf p).1 = 0) :
    (httpParserAppendMessage buf p).2.1 = buf.length ∧
      (httpParserAppendMessage buf p).2.2 = (callEnd (appendBytes buf p)).2.2 := by
  rw [append_code _ hp] at hcode
  rw [append_of_zero hp hcode]
  exact ⟨rfl, rfl⟩

/-- What `HttpResponse::append` makes of the codes of the parser when there is no size limit. -/
inductive Appended (buf : Bytes) (resp : HttpResponse) (call : Int × Nat × HttpParser) : Prop
  | more (next : HttpResponse) (code : call.1 = 0) (append : resp.append buf = (0, call.2.1, next))
      (parser : next.parser = call.2.2) (limit : next.sizeLimit = sizeMax)
  | interim (next : HttpResponse) (code : call.1 = 1) (thrown : isInterim call.2.2 = true)
      (append : resp.append buf = (0, call.2.1, next))
      (parser : next.parser = httpParserInit true call.2.2) (limit : next.sizeLimit = sizeMax)
  | final (next : HttpResponse) (code : call.1 = 1) (kept : isInterim call.2.2 = false)
      (append : resp.append buf = (1, call.2.1, next)) (parser : next.parser = call.2.2)
  | bad (next : HttpResponse) (code : call.1 = -2) (append : resp.append buf = (-1, call.2.1, next))
      (parser : next.parser = call.2.2)

theorem appended {isResp zeroBody : Bool} (buf : Bytes)
    (hp : Between isResp zeroBody resp.parser) (hlimit : resp.sizeLimit = sizeMax) :
    Appended buf resp (httpParserAppendMessage buf resp.parser) := by
  have hcodes := callEnd_codes (hp.appendBytes buf).ready
  rw [← append_code _ hp] at hcodes
  have hroom : ∀ n, ¬ sizeAdd resp.curSize n > resp.sizeLimit := by
    intro n
    rw [hlimit, sizeMax, Nat.not_lt]
    exact Nat.le_sub_one_of_lt (Nat.mod_lt _ (by decide))
  obtain ⟨parsed, hparsed⟩ : ∃ parsed : HttpResponse, parsed = { resp with
    parser := (httpParserAppendMessage buf resp.parser).2.2
    curSize := sizeAdd resp.curSize (httpParserAppendMessage buf resp.parser).2.1 } := ⟨_, rfl⟩
  have hparser : parsed.parser = (httpParserAppendMessage buf resp.parser).2.2 := by rw [hparsed]
  have hok : 0 ≤ (httpParserAppendMessage buf resp.parser).1 → resp.appendMessage buf
      = ((httpParserAppendMessage buf resp.parser).1, (httpParserAppendMessage buf resp.parser).2.1,
        parsed) := by
    intro hret
    simp only [HttpResponse.appendMessage, if_pos hret, if_neg (hroom _), hparsed]
  rcases hcodes with hcode | hcode | hcode
  · refine .more parsed hcode ?_ hparser (by rw [hparsed]; exact hlimit)
    rw [HttpResponse.append, hok (by rw [hcode])]
    simp [hcode]
  · cases hinterim : isInterim (httpParserAppendMessage buf resp.parser).2.2 with
    | true =>
        refine .interim { parsed with parser := httpParserInit true parsed.parser } hcode hinterim ?_
          (by rw [hparser]) (by rw [hparsed]; exact hlimit)
        rw [HttpResponse.append, hok (by rw [hcode]; decide)]
        simp [hcode, hparser, hinterim]
    | false =>
        refine .final parsed hcode hinterim ?_ hparser
        rw [HttpResponse.append, hok (by rw [hcode]; decide)]
        simp [hcode, hparser, hinterim]
  · refine .bad { resp with parser := (httpParserAppendMessage buf resp.parser).2.2 } hcode ?_ rfl
    simp [HttpResponse.append, HttpResponse.appendMessage, hcode]

end Loop

theorem Receipt.after_after (m n : Nat) (receipt : Receipt) :
    (receipt.after n).after m = receipt.after (m + n) := by
  simp only [Receipt.after, Nat.add_assoc]

section Bodiless

variable {zeroBody : Bool} {memory : HttpParser} {head : Head} {rest : Bytes}

/-- `receipt` is what is seen when `k` bytes of a head are left and its message has no body: an interim
response is thrown away, any other one is complete. -/
structure EndsHead (head : Head) (k : Nat) (reads : List Bytes) (receipt : Receipt) : Prop where
  interim : head.parts.2.1.head? = some 49 → ∃ (fuel : Nat) (memory : HttpParser)
    (next : HttpResponse), next.parser = freshParser true false memory ∧ next.sizeLimit = sizeMax ∧
      readsSize (dropBytes k reads) ≤ fuel ∧
      receipt = (pollerLoop fuel (dropBytes k reads) next).after k
  final : head.parts.2.1.head? ≠ some 49 → receipt.code = 1 ∧ receipt.consumed = k

theorem isInterim_of_code {p : HttpParser} (h : p.code = some head.parts.2.1) :
    isInterim p = true ↔ head.parts.2.1.head? = some 49 := by
  rw [isInterim, h, Option.any_some, beq_iff_eq]

theorem length_headEnd (head : Head) : (head.text ++ crlf).length = head.text.length + 2 := by
  rw [List.length_append]
  rfl

/-- The read that brings the end of the head. -/
theorem endsHead_of_long {fuel : Nat} {stream buf : Bytes} {reads : List Bytes} {resp : HttpResponse}
    (hbodiless : zeroBody = true ∨ hasNoBody head.parts.2.1 = true)
    (h : Midway zeroBody memory stream resp.parser) (hlimit : resp.sizeLimit = sizeMax)
    (hcut : stream ++ buf ++ reads.flatten = head.text ++ crlf ++ rest)
    (hshort : stream.length < head.text.length + 2)
    (hlong : head.text.length + 2 ≤ (stream ++ buf).length)
    (hsize : (stream ++ buf).length < 2 ^ 63) (hfuel : readsSize (buf :: reads) ≤ fuel + 1) :
    EndsHead head (head.text.length + 2 - stream.length) (buf :: reads)
      (pollerLoop (fuel + 1) (buf :: reads) resp) := by
  obtain ⟨behind, hbehind, -⟩ := exists_append_of_append_eq (head.text ++ crlf) rest hcut
    (by rw [length_headEnd]; exact hlong)
  rw [List.append_assoc] at hbehind
  obtain ⟨parser, happend, hcode⟩ := h.append_of_bodiless hbehind hbodiless hsize
  have hinterim := isInterim_of_code hcode
  have hcall := appended buf h.waiting.between hlimit
  rw [happend] at hcall
  rw [List.length_append] at hlong
  refine ⟨fun hfirst => ?_, fun hfirst => ?_⟩
  · cases hcall with
    | more next code append hparser limit => cases code
    | bad next code append hparser => cases code
    | final next code kept append hparser =>
        rw [hinterim.mpr hfirst] at kept
        cases kept
    | interim next code thrown append hparser limit =>
        have hdrop : dropBytes (head.text.length + 2 - stream.length) (buf :: reads)
            = unread (head.text.length + 2 - stream.length) buf reads :=
          dropBytes_of_le reads (by omega) (by omega)
        refine ⟨fuel, parser, next, hparser, limit, ?_, ?_⟩
        · have hless := readsSize_unread buf reads
            (show 0 < head.text.length + 2 - stream.length by omega)
          rw [hdrop]
          omega
        · rw [hdrop]
          exact pollerLoop_of_zero append
  · cases hcall with
    | more next code append hparser limit => cases code
    | bad next code append hparser => cases code
    | interim next code thrown append hparser limit => exact absurd (hinterim.mp thrown) hfirst
    | final next code kept append hparser =>
        rw [pollerLoop_of_ne_zero append (by decide)]
        exact ⟨rfl, rfl⟩

theorem EndsHead.after {k : Nat} {buf : Bytes} {reads : List Bytes} {receipt : Receipt}
    (h : EndsHead head (k - buf.length) reads receipt) (hk : buf.length < k) :
    EndsHead head k (buf :: reads) (receipt.after buf.length) := by
  have hsum : buf.length + (k - buf.length) = k := Nat.add_sub_cancel' hk.le
  have hdrop : dropBytes k (buf :: reads) = dropBytes (k - buf.length) reads := by
    rw [dropBytes, if_neg (by omega), if_pos hk.le]
  refine ⟨fun hfirst => ?_, fun hfirst => ?_⟩
  · obtain ⟨fuel, memory, last, hlast, hlimit, hsizes, heq⟩ := h.interim hfirst
    refine ⟨fuel, memory, last, hlast, hlimit, ?_, ?_⟩
    · rw [hdrop]
      exact hsizes
    · rw [heq, Receipt.after_after, hsum, hdrop]
  · obtain ⟨hone, hconsumed⟩ := h.final hfirst
    refine ⟨hone, ?_⟩
    rw [Receipt.after, hconsumed, hsum]

/-- By induction on the reads: each of them brings a part of the head, and one brings its end. -/
theorem endsHead_pollerLoop (hbodiless : zeroBody = true ∨ hasNoBody head.parts.2.1 = true) :
    ∀ (reads : List Bytes) {fuel : Nat} {stream : Bytes} {resp : HttpResponse},
      Midway zeroBody memory stream resp.parser → resp.sizeLimit = sizeMax →
      stream ++ reads.flatten = head.text ++ (crlf ++ rest) →
      stream.length < head.text.length + 2 → (stream ++ reads.flatten).length < 2 ^ 63 →
      readsSize reads ≤ fuel →
      EndsHead head (head.text.length + 2 - stream.length) reads (pollerLoop fuel reads resp) := by
  intro reads
  induction reads with
  | nil =>
      intro fuel stream resp _ _ hstream hshort _ _
      have hlength := congrArg List.length hstream
      simp only [List.flatten_nil, List.append_nil, List.length_append, crlf, List.length_cons,
        List.length_nil] at hlength
      omega
  | cons buf reads ih =>
      intro fuel stream resp h hlimit hstream hshort hsize hfuel
      rw [List.flatten_cons, ← List.append_assoc] at hstream hsize
      obtain ⟨fuel, rfl, hfuel'⟩ := exists_fuel hfuel
      have hcut : stream ++ buf ++ reads.flatten = head.text ++ crlf ++ rest := by
        rw [hstream, List.append_assoc]
      by_cases hlong : head.text.length + 2 ≤ (stream ++ buf).length
      · refine endsHead_of_long hbodiless h hlimit hcut hshort hlong ?_ hfuel
        rw [List.length_append] at hsize
        omega
      · obtain ⟨more, hmore, -⟩ := exists_append_of_append_eq (stream ++ buf) reads.flatten
          hcut.symm (by rw [length_headEnd]; omega)
        have hne : more ≠ [] := by
          rintro rfl
          have hlength := congrArg List.length hmore
          rw [length_headEnd, List.append_nil] at hlength
          omega
        have hcode := h.append_of_part hmore.symm hne
        have hnext := h.append hcode
        cases appended buf h.waiting.between hlimit with
        | interim next code thrown append hparser limit => simp [hcode] at code
        | final next code kept append hparser => simp [hcode] at code
        | bad next code append hparser => simp [hcode] at code
        | more next code append hparser limit =>
            rw [(append_more h.waiting.between hcode).1] at append
            rw [← hparser] at hnext
            have hrest := ih hnext limit hstream (Nat.not_le.mp hlong) hsize hfuel'
            rw [List.length_append] at hlong hrest
            rw [Nat.sub_add_eq] at hrest
            rw [pollerLoop_of_more append]
            exact hrest.after (by omega)

end Bodiless

/-- Two receipts that differ at most in what the parsers keep for the body. -/
structure SameReceipt (x y : Receipt) : Prop where
  code : x.code = y.code
  consumed : x.consumed = y.consumed
  alike : Alike x.response.parser y.response.parser

theorem SameReceipt.after {x y : Receipt} (h : SameReceipt x y) (n : Nat) :
    SameReceipt (x.after n) (y.after n) :=
  ⟨h.code, congrArg (n + ·) h.consumed, h.alike⟩

section Twins

variable {zeroBody : Bool} {memory p q : HttpParser} {stream buf : Bytes}

theorem Midway.head_of_live (h : Midway zeroBody memory stream p)
    (live : HeaderLive (appendBytes buf p))
    (hstop : (headerMachine.run (p.msgbuf ++ buf) (appendBytes buf p)).1 = .stop 1) :
    HeaderLive p ∧ ∃ (head : Head) (rest : Bytes), stream ++ buf = head.text ++ (crlf ++ rest) := by
  have hlive : HeaderLive p := by
    rw [HeaderLive, (sameScan_appendBytes p buf).1] at live
    exact live
  cases h.resumes with
  | done complete stop same => exact absurd complete hlive
  | reading live' message more agree =>
      have hscan := Resumes.scan live' message agree h.waiting.between buf []
      rw [List.append_nil] at hscan
      rw [message] at hstop
      exact ⟨hlive, head_of_run zeroBody memory (hscan.1.trans hstop)⟩

theorem Midway.saysNoBody (h : Midway zeroBody memory stream p)
    (hheads : ∀ (head : Head) (rest : Bytes), stream ++ buf = head.text ++ (crlf ++ rest) →
      head.SaysNoBody)
    (live : HeaderLive (appendBytes buf p))
    (hstop : (headerMachine.run (p.msgbuf ++ buf) (appendBytes buf p)).1 = .stop 1) :
    SaysNoBody (headerMachine.run (p.msgbuf ++ buf) (appendBytes buf p)).2 := by
  obtain ⟨hlive, head, rest, hmessage⟩ := h.head_of_live live hstop
  obtain ⟨-, -, hread⟩ := h.readAs hlive hmessage
  have hready := (h.waiting.between.appendBytes buf)
  have hlengths := header_run_lengths (hready.ready.ready live) (hready.lengths.1 live)
  exact (hread.saysNoBody_iff hlengths.content).mpr (hheads head rest hmessage)

theorem Midway.head_of_one (h : Midway zeroBody memory stream p)
    (hcode : (httpParserAppendMessage buf p).1 = 1) :
    ∃ (head : Head) (rest : Bytes), stream ++ buf = head.text ++ (crlf ++ rest) := by
  have hready := freshParser_ready true zeroBody memory
  obtain ⟨hsame, -, -⟩ := h.resumes.append buf h.waiting.between (hready stream)
  have hcomplete : (httpParserAppendMessage buf p).2.2.headerState = .headerComplete := by
    rw [append_code _ h.waiting.between] at hcode
    rw [(sameHeader_append h.waiting.between buf).headerState_eq]
    exact callEnd_headerComplete (h.waiting.between.appendBytes buf).ready hcode
  have hstate := hsame.headerState_eq.symm.trans hcomplete
  cases (headRead_freshParser true zeroBody memory (stream ++ buf)).run (hready _) with
  | headerComplete head rest hmessage hoffset hstate' stored => exact ⟨head, rest, hmessage⟩
  | startLine empties rest hmessage hoffset hstate' unread => simp [hstate] at hstate'
  | headerName head rest hmessage hoffset hstate' stored behind => simp [hstate] at hstate'
  | headerValue head f rest hmessage hoffset hstate' stored hname => simp [hstate] at hstate'

theorem Midway.readAs_of_one (h : Midway zeroBody memory stream p) {head : Head} {behind rest : Bytes}
    (hcode : (httpParserAppendMessage buf p).1 = 1)
    (hmessage : stream ++ buf ++ behind = head.text ++ (crlf ++ rest)) :
    ReadAs head (httpParserAppendMessage buf p).2.2 := by
  have hready := freshParser_ready true zeroBody memory
  obtain ⟨hsame, -, hstop⟩ := h.resumes.append buf h.waiting.between (hready stream)
  have hread := (run_complete zeroBody memory hmessage).2
  rw [Machine.run_append_of_stop headerMachine_resumable behind (hready _)
    (hstop (by rw [hcode]; decide))] at hread
  exact hread.of_sameHeader hsame

theorem Midway.positive_of_interim (h : Midway zeroBody memory stream p)
    (hsize : (stream ++ buf).length < 2 ^ 63) (hcode : (httpParserAppendMessage buf p).1 = 1)
    (hinterim : isInterim (httpParserAppendMessage buf p).2.2 = true) :
    0 < (httpParserAppendMessage buf p).2.1 := by
  obtain ⟨head, rest, hmessage⟩ := h.head_of_one hcode
  have hwhole : stream ++ buf ++ [] = head.text ++ (crlf ++ rest) := by
    rw [List.append_nil]
    exact hmessage
  have hread := h.readAs_of_one hcode hwhole
  have hfirst := (isInterim_of_code hread.code).mp hinterim
  have hbodiless : zeroBody = true ∨ hasNoBody head.parts.2.1 = true := by
    right
    simp [hasNoBody, hfirst]
  obtain ⟨next, happend, -⟩ := h.append_of_bodiless hmessage hbodiless hsize
  have hshort := (h.live_of_bodiless hmessage hbodiless).2
  rw [happend]
  exact Nat.sub_pos_of_lt hshort

theorem sameHeader_freshParser (isResp zeroBody zeroBody' : Bool) (memory memory' : HttpParser) :
    SameHeader (freshParser isResp zeroBody memory) (freshParser isResp zeroBody' memory') := by
  cases zeroBody <;> cases zeroBody' <;> exact ⟨rfl, fun h => by cases h⟩

theorem twins_freshParser (isResp zeroBody zeroBody' : Bool) (memory memory' : HttpParser) :
    Twins (freshParser isResp zeroBody memory) (freshParser isResp zeroBody' memory') := by
  refine ⟨⟨sameHeader_freshParser isResp zeroBody zeroBody' memory memory', ?_, ?_⟩, ?_⟩
  · cases zeroBody <;> cases zeroBody' <;> rfl
  · cases zeroBody <;> cases zeroBody' <;> rfl
  · intro hcomplete
    cases zeroBody <;> cases hcomplete

end Twins

/-- What the same bytes come to for two responses whose parsers agree. -/
inductive TwinCalls (buf : Bytes) (resp resp' : HttpResponse) (call call' : Int × Nat × HttpParser) : Prop
  | more (next next' : HttpResponse) (code : call.1 = 0) (code' : call'.1 = 0)
      (append : resp.append buf = (0, call.2.1, next))
      (append' : resp'.append buf = (0, call'.2.1, next'))
      (parser : next.parser = call.2.2) (parser' : next'.parser = call'.2.2)
      (limit : next.sizeLimit = sizeMax) (limit' : next'.sizeLimit = sizeMax)
  | interim (next next' : HttpResponse) (code : call.1 = 1) (thrown : isInterim call.2.2 = true)
      (append : resp.append buf = (0, call.2.1, next))
      (append' : resp'.append buf = (0, call'.2.1, next'))
      (parser : next.parser = freshParser true false call.2.2)
      (parser' : next'.parser = freshParser true false call'.2.2)
      (limit : next.sizeLimit = sizeMax) (limit' : next'.sizeLimit = sizeMax)
  | ended (ret : Int) (next next' : HttpResponse) (ended : ret ≠ 0)
      (append : resp.append buf = (ret, call.2.1, next))
      (append' : resp'.append buf = (ret, call'.2.1, next'))
      (parser : next.parser = call.2.2) (parser' : next'.parser = call'.2.2)

theorem twinCalls {buf : Bytes} {resp resp' : HttpResponse} {call call' : Int × Nat × HttpParser}
    (hcall : Appended buf resp call) (hcall' : Appended buf resp' call') (hcode : call.1 = call'.1)
    (hinterim : isInterim call'.2.2 = isInterim call.2.2) : TwinCalls buf resp resp' call call' := by
  cases hcall with
  | more next code append parser limit =>
      cases hcall' with
      | more next' code' append' parser' limit' =>
          exact .more next next' code code' append append' parser parser' limit limit'
      | interim next' code' => simp [← hcode, code] at code'
      | final next' code' => simp [← hcode, code] at code'
      | bad next' code' => simp [← hcode, code] at code'
  | interim next code thrown append parser limit =>
      cases hcall' with
      | more next' code' => simp [← hcode, code] at code'
      | interim next' code' thrown' append' parser' limit' =>
          exact .interim next next' code thrown append append' parser parser' limit limit'
      | final next' code' kept' => simp [hinterim, thrown] at kept'
      | bad next' code' => simp [← hcode, code] at code'
  | final next code kept append parser =>
      cases hcall' with
      | more next' code' => simp [← hcode, code] at code'
      | interim next' code' thrown' => simp [hinterim, kept] at thrown'
      | final next' code' kept' append' parser' =>
          exact .ended 1 next next' (by decide) append append' parser parser'
      | bad next' code' => simp [← hcode, code] at code'
  | bad next code append parser =>
      cases hcall' with
      | more next' code' => simp [← hcode, code] at code'
      | interim next' code' => simp [← hcode, code] at code'
      | final next' code' => simp [← hcode, code] at code'
      | bad next' code' append' parser' =>
          exact .ended (-1) next next' (by decide) append append' parser parser'

/-- By induction on the calls of the first loop. -/
theorem sameReceipt_pollerLoop :
    ∀ (fuel : Nat) {fuel' : Nat} {zeroBody : Bool} {memory memory' : HttpParser} {stream : Bytes}
      {reads : List Bytes} {resp resp' : HttpResponse},
      Midway zeroBody memory stream resp.parser → Midway false memory' stream resp'.parser →
      Twins resp.parser resp'.parser → resp.sizeLimit = sizeMax → resp'.sizeLimit = sizeMax →
      (zeroBody = true → ∀ (head : Head) (rest : Bytes),
        stream ++ reads.flatten = head.text ++ (crlf ++ rest) → head.SaysNoBody) →
      (stream ++ reads.flatten).length < 2 ^ 63 → readsSize reads ≤ fuel → readsSize reads ≤ fuel' →
      SameReceipt (pollerLoop fuel reads resp) (pollerLoop fuel' reads resp') := by
  intro fuel
  induction fuel with
  | zero =>
      intro fuel' zeroBody memory memory' stream reads resp resp' _ _ htwins _ _ _ _ hfuel _
      cases reads with
      | nil =>
          rw [pollerLoop_nil, pollerLoop_nil]
          exact ⟨rfl, rfl, htwins.toAlike⟩
      | cons buf reads =>
          rw [readsSize_cons] at hfuel
          omega
  | succ fuel ih =>
      intro fuel' zeroBody memory memory' stream reads resp resp' h h' htwins hlimit hlimit' hheads
        hsize hfuel hfuel'
      cases reads with
      | nil =>
          rw [pollerLoop_nil, pollerLoop_nil]
          exact ⟨rfl, rfl, htwins.toAlike⟩
      | cons buf reads =>
          obtain ⟨fuel', rfl, hless'⟩ := exists_fuel hfuel'
          rw [List.flatten_cons, ← List.append_assoc] at hsize
          have hheads' : zeroBody = true → ∀ (head : Head) (rest : Bytes),
              stream ++ buf ++ reads.flatten = head.text ++ (crlf ++ rest) → head.SaysNoBody := by
            intro hzero head rest hmessage
            rw [List.append_assoc, ← List.flatten_cons] at hmessage
            exact hheads hzero head rest hmessage
          obtain ⟨hcode, hcount, halike, hnext⟩ := htwins.append buf h.waiting.between
            h'.waiting.between fun hzero live hstop => by
              refine h.saysNoBody (fun head rest hmessage => ?_) live hstop
              refine hheads' hzero head (rest ++ reads.flatten) ?_
              rw [hmessage]
              simp only [List.append_assoc]
          have hinterim : isInterim (httpParserAppendMessage buf resp'.parser).2.2
              = isInterim (httpParserAppendMessage buf resp.parser).2.2 := by
            rw [isInterim, isInterim, halike.header.code_eq]
          cases twinCalls (appended buf h.waiting.between hlimit)
            (appended buf h'.waiting.between hlimit') hcode hinterim with
          | more next next' code code' append append' hparser hparser' limit limit' =>
              rw [(append_more h.waiting.between code).1] at append
              rw [(append_more h'.waiting.between code').1] at append'
              rw [pollerLoop_of_more append, pollerLoop_of_more append']
              have hmid := h.append code
              have hmid' := h'.append code'
              have htwins' := hnext (by rw [code])
              rw [← hparser] at hmid htwins'
              rw [← hparser'] at hmid' htwins'
              have hless : readsSize reads ≤ fuel := by
                rw [readsSize_cons] at hfuel
                omega
              exact (ih hmid hmid' htwins' limit limit' hheads' hsize hless hless').after buf.length
          | interim next next' code thrown append append' hparser hparser' limit limit' =>
              have hsizeBuf : (stream ++ buf).length < 2 ^ 63 := by
                rw [List.length_append] at hsize
                omega
              have hless := readsSize_unread buf reads (h.positive_of_interim hsizeBuf code thrown)
              rw [pollerLoop_of_zero append, pollerLoop_of_zero append', ← hcount]
              have hmid := midway_freshParser false (httpParserAppendMessage buf resp.parser).2.2
              have hmid' := midway_freshParser false (httpParserAppendMessage buf resp'.parser).2.2
              have htwins' := twins_freshParser true false false
                (httpParserAppendMessage buf resp.parser).2.2
                (httpParserAppendMessage buf resp'.parser).2.2
              rw [← hparser] at hmid htwins'
              rw [← hparser'] at hmid' htwins'
              refine SameReceipt.after (ih hmid hmid' htwins' limit limit' (by simp) ?_
                (by omega) (by omega)) _
              rw [List.nil_append, flatten_unread]
              simp only [List.length_append, List.length_drop] at hsize ⊢
              omega
          | ended ret next next' hended append append' hparser hparser' =>
              rw [pollerLoop_of_ne_zero append hended, pollerLoop_of_ne_zero append' hended]
              refine ⟨rfl, hcount, ?_⟩
              rw [hparser, hparser']
              exact halike

theorem contentLengthAfter_lt (lines : List HeaderLine) :
    contentLengthAfter sizeMax lines < sizeModulus := by
  induction lines using List.reverseRecOn with
  | nil => decide
  | append_singleton lines line ih =>
      rw [contentLengthAfter_append]
      split_ifs
      · rcases sizeOfInt_atoi_range line.value with hsmall | ⟨-, hbig⟩
        · exact lt_of_le_of_lt hsmall (by decide)
        · exact hbig
      · exact ih

section Announced

variable {memory p : HttpParser} {stream buf behind rest : Bytes} {head : Head}
  {steps : List Stepped}

/-- The steps over a chunked body that is complete went over some bytes. -/
theorem OnPath.headerOffset_lt {message : Bytes} (h : OnPath message p.headerOffset steps p)
    (hcomplete : p.chunkState = .chunkComplete) : p.headerOffset < p.chunkOffset := by
  obtain ⟨hpath, -⟩ := h
  rw [hcomplete] at hpath
  cases steps with
  | nil =>
      obtain ⟨hstate, -⟩ := hpath
      cases hstate
  | cons x steps =>
      have hoffset := hpath.offset_eq
      obtain ⟨u, hover, -⟩ := hpath
      have hbytes : 0 < x.bytes.length := by
        cases hover <;> simp [Stepped.bytes, crlf] <;> omega
      rw [spelled_cons, List.length_append] at hoffset
      omega

/-- With a body to come, the message does not end where its header ends. -/
theorem Midway.total_ne (h : Midway false memory stream p) (hsteps : Walked steps p)
    (hbody : ¬ head.SaysNoBody) (hcode : (httpParserAppendMessage buf p).1 = 1)
    (hmessage : stream ++ buf ++ behind = head.text ++ (crlf ++ rest))
    (hsize : (stream ++ buf ++ behind).length < 2 ^ 63) :
    (callEnd (appendBytes buf p)).2.1 ≠ head.text.length + 2 := by
  have hbetween := h.waiting.between.appendBytes buf
  have hread := (h.readAs_of_one hcode hmessage).of_sameHeader
    (sameHeader_equivalence.symm (sameHeader_append h.waiting.between buf))
  rw [append_code _ h.waiting.between] at hcode
  have hwalked := (hsteps.appendBytes h.waiting.between.ready buf).callEnd hbetween.ready
    (by rw [hcode]; decide)
  have hlengths := (callEnd_lengths hbetween.ready hbetween.lengths (by rw [hcode]; decide)).2
    hread.state
  have hlong : head.text.length + 2 < 2 ^ 63 := by
    rw [hmessage] at hsize
    simp only [List.length_append, crlf, List.length_cons, List.length_nil] at hsize
    omega
  have hunchunked := callEnd_total hbetween.ready hcode
  have hchunks := callEnd_of_chunked_one hbetween.ready hcode
  generalize callEnd (appendBytes buf p) = c
    at hread hwalked hlengths hcode hunchunked hchunks ⊢
  obtain ⟨hstatus, hannounced⟩ := not_or.mp hbody
  have htransfer := hlengths.transfer
  rw [HttpParser.bodiless, Bool.false_or, hread.code, Option.any_some, if_neg hstatus] at htransfer
  cases hchunked : c.2.2.chunked with
  | true =>
      rw [hchunked, if_pos rfl] at htransfer
      rcases hchunks hchunked with ⟨-, hstate, htotal⟩ | ⟨hknown, -⟩
      · have hpath := hwalked.body hread.state htransfer hchunked
        have hlater := hpath.headerOffset_lt hstate
        rw [htotal]
        rw [hread.offset] at hlater
        exact Nat.ne_of_gt hlater
      · exact absurd htransfer hknown
  | false =>
      obtain ⟨-, htotal⟩ := hunchunked hchunked
      rw [hchunked, if_neg (by decide), hlengths.content, if_pos rfl] at htransfer
      have hlt := contentLengthAfter_lt c.2.2.headerList
      have hne : contentLengthAfter sizeMax c.2.2.headerList ≠ 0 := by
        rw [contentLengthAfter_eq, hread.list]
        exact fun hzero => hannounced ⟨hread.chunked.symm.trans hchunked, hzero⟩
      rw [htotal, htransfer, hread.offset]
      unfold sizeAdd sizeModulus at *
      omega

theorem Midway.consumed_ne (h : Midway false memory stream p) (hsteps : Walked steps p)
    (hbody : ¬ head.SaysNoBody) (hcode : (httpParserAppendMessage buf p).1 = 1)
    (hmessage : stream ++ buf ++ behind = head.text ++ (crlf ++ rest))
    (hsize : (stream ++ buf ++ behind).length < 2 ^ 63) :
    stream.length + (httpParserAppendMessage buf p).2.1 ≠ head.text.length + 2 := by
  have htotal := h.total_ne hsteps hbody hcode hmessage hsize
  rw [append_code _ h.waiting.between] at hcode
  have hinside := (callEnd_inside (h.waiting.between.appendBytes buf).ready).2 hcode
  have hcount : (httpParserAppendMessage buf p).2.1
      = sizeSub (callEnd (appendBytes buf p)).2.1 stream.length := by
    rw [append_of_one h.waiting.between hcode (by
      rw [h.waiting.message]
      simp only [List.length_append] at hsize ⊢
      omega), HttpParser.msgsize, h.waiting.message]
  have hbuffer : (appendBytes buf p).msgsize = (stream ++ buf).length := by
    rw [HttpParser.msgsize, appendBytes_msgbuf, h.waiting.message]
  have hlong : head.text.length + 2 < 2 ^ 63 := by
    rw [hmessage] at hsize
    simp only [List.length_append, crlf, List.length_cons, List.length_nil] at hsize
    omega
  rw [hbuffer] at hinside
  rw [hcount]
  simp only [List.length_append] at hsize hinside
  unfold sizeSub sizeModulus
  omega

/-- By induction on the reads. -/
theorem consumed_ne (hbody : ¬ head.SaysNoBody) : ∀ (reads : List Bytes) {fuel : Nat} {stream : Bytes}
    {steps : List Stepped} {resp : HttpResponse}, Midway false memory stream resp.parser →
    Walked steps resp.parser → resp.sizeLimit = sizeMax →
    stream ++ reads.flatten = head.text ++ (crlf ++ rest) →
    (stream ++ reads.flatten).length < 2 ^ 63 → readsSize reads ≤ fuel →
    (pollerLoop fuel reads resp).code = 1 →
    stream.length + (pollerLoop fuel reads resp).consumed ≠ head.text.length + 2 := by
  intro reads
  induction reads with
  | nil =>
      intro fuel stream steps resp _ _ _ _ _ _ hcode
      rw [pollerLoop_nil] at hcode
      cases hcode
  | cons buf reads ih =>
      intro fuel stream steps resp h hsteps hlimit hmessage hsize hfuel hone
      obtain ⟨fuel, rfl, hless⟩ := exists_fuel hfuel
      rw [List.flatten_cons, ← List.append_assoc] at hmessage hsize
      have hcall := appended buf h.waiting.between hlimit
      cases hcall with
      | bad next code append hparser =>
          rw [pollerLoop_of_ne_zero append (by decide)] at hone
          cases hone
      | interim next code thrown append hparser limit =>
          have hread := h.readAs_of_one code hmessage
          have hfirst := (isInterim_of_code hread.code).mp thrown
          exact absurd (Or.inl (by simp [hasNoBody, hfirst])) hbody
      | final next code kept append hparser =>
          rw [pollerLoop_of_ne_zero append (by decide)]
          exact h.consumed_ne hsteps hbody code hmessage hsize
      | more next code append hparser limit =>
          have hend := (h.waiting.between.appendBytes buf).ready
          have hused := append_more h.waiting.between code
          have hwalked := (hsteps.appendBytes h.waiting.between.ready buf).callEnd hend (by
            rw [← append_code _ h.waiting.between, code])
          have hnext := h.append code
          rw [← hparser] at hnext
          rw [← hused.2, ← hparser] at hwalked
          rw [hused.1] at append
          rw [pollerLoop_of_more append] at hone ⊢
          have hrest := ih hnext hwalked limit hmessage hsize hless hone
          rw [List.length_append, Nat.add_assoc] at hrest
          exact hrest

end Announced

/-- A complete message whose status code starts with `1`. -/
structure Interim where
  head : Head
  interim : head.parts.2.1.head? = some 49

def Interim.text (m : Interim) : Bytes := m.head.text ++ crlf

/-- What a caller sees of a stream that starts with `k` bytes of interim responses, and of the stream
behind them alone. -/
structure Transparent (k : Nat) (both alone : Receipt) : Prop where
  code : both.code = alone.code
  consumed : both.consumed = k + alone.consumed
  version : both.response.parser.version = alone.response.parser.version
  status : both.response.parser.code = alone.response.parser.code
  phrase : both.response.parser.phrase = alone.response.parser.phrase
  headers : both.response.parser.headerList = alone.response.parser.headerList
  body : httpParserGetBody both.response.parser = httpParserGetBody alone.response.parser

theorem Alike.getBody_eq {p q : HttpParser} (h : Alike p q) :
    httpParserGetBody p = httpParserGetBody q := by
  rw [httpParserGetBody, httpParserGetBody, HttpParser.msgsize, HttpParser.msgsize, h.message,
    h.complete, h.header.headerState_eq, h.header.headerOffset_eq]

theorem SameReceipt.transparent {alone both : Receipt} (h : SameReceipt alone both) (k : Nat) :
    Transparent k (both.after k) alone := by
  have hheader := h.alike.header.1
  have hbody := h.alike.getBody_eq
  refine ⟨h.code.symm, congrArg (k + ·) h.consumed.symm, ?_, ?_, ?_, ?_, hbody.symm⟩ <;>
    · dsimp only [Receipt.after]
      rw [hheader]
      rfl

theorem midway_init (zeroBody : Bool) (memory : HttpParser) :
    Midway zeroBody memory [] (HttpResponse.init zeroBody memory).parser :=
  midway_freshParser zeroBody memory

theorem flatten_dropBytes : ∀ (k : Nat) (reads : List Bytes),
    (dropBytes k reads).flatten = reads.flatten.drop k := by
  intro k reads
  induction reads generalizing k with
  | nil => simp [dropBytes]
  | cons buf reads ih =>
      rw [dropBytes, List.flatten_cons]
      split_ifs with hzero hle
      · rw [hzero, List.drop_zero, List.flatten_cons]
      · rw [ih, List.drop_append, List.drop_of_length_le hle, List.nil_append]
      · rw [List.flatten_cons, List.drop_append_of_le_length (by omega)]

/-- An interim response leaves no trace, in any cut, exactly when the caller had not said that there is
no body, or the final response says so by itself. -/
theorem transparent_iff (zeroBody : Bool) (memory : HttpParser) (m : Interim) (final : Bytes)
    (reads : List Bytes) (hreads : reads.flatten = m.text ++ final)
    (hsize : reads.flatten.length < 2 ^ 63) :
    Transparent m.text.length (receive reads (HttpResponse.init zeroBody memory))
        (receive (dropBytes m.text.length reads) (HttpResponse.init zeroBody memory)) ↔
      (zeroBody = true → ∀ (head : Head) (rest : Bytes), final = head.text ++ (crlf ++ rest) →
        head.SaysNoBody) := by
  have hlength : m.text.length = m.head.text.length + 2 := by
    rw [Interim.text, List.length_append]
    rfl
  have hbodiless : zeroBody = true ∨ hasNoBody m.head.parts.2.1 = true :=
    Or.inr (by simp [hasNoBody, m.interim])
  have hstart : ([] : Bytes) ++ reads.flatten = m.head.text ++ (crlf ++ final) := by
    rw [List.nil_append, hreads, Interim.text, List.append_assoc]
  obtain ⟨fuel, memory', next, hnext, hlimit, hfuel, hboth⟩ :=
    (endsHead_pollerLoop hbodiless reads (midway_init zeroBody memory) rfl hstart (by simp) hsize
      le_rfl).interim m.interim
  rw [List.length_nil, Nat.sub_zero, ← hlength] at hfuel hboth
  have hfinal : (dropBytes m.text.length reads).flatten = final := by
    rw [flatten_dropBytes, hreads, List.drop_left]
  have hsize' : ([] ++ (dropBytes m.text.length reads).flatten).length < 2 ^ 63 := by
    rw [hreads, List.length_append] at hsize
    rw [List.nil_append, hfinal]
    omega
  have hmid : Midway false memory' [] next.parser := by
    rw [hnext]
    exact midway_freshParser false memory'
  rw [receive, hboth, receive]
  constructor
  · rintro htransparent rfl head rest hhead
    by_contra hbody
    have hcode : head.parts.2.1.head? ≠ some 49 := fun hfirst =>
      hbody (Or.inl (by simp [hasNoBody, hfirst]))
    have hmessage : [] ++ (dropBytes m.text.length reads).flatten = head.text ++ (crlf ++ rest) := by
      rw [List.nil_append, hfinal, hhead]
    obtain ⟨hone, hconsumed⟩ := (endsHead_pollerLoop (Or.inl rfl) (dropBytes m.text.length reads)
      (midway_init true memory) rfl hmessage (by simp) hsize' le_rfl).final hcode
    have hwalked : Walked [] next.parser := by
      rw [hnext]
      exact walked_freshParser true false memory'
    have hne := consumed_ne hbody (dropBytes m.text.length reads) hmid hwalked hlimit hmessage hsize'
      hfuel (htransparent.code.trans hone)
    have hsame := htransparent.consumed
    rw [hconsumed, Receipt.after] at hsame
    dsimp only at hsame
    rw [List.length_nil] at hne hsame
    omega
  · intro hheads
    refine SameReceipt.transparent ?_ m.text.length
    have htwins := twins_freshParser true zeroBody false memory memory'
    rw [← hnext] at htwins
    refine sameReceipt_pollerLoop _ (midway_init zeroBody memory) hmid htwins rfl hlimit ?_
      hsize' le_rfl hfuel
    intro hzero head rest hmessage
    rw [List.nil_append, hfinal] at hmessage
    exact hheads hzero head rest hmessage

def continueInterim : Interim where
  head :=
    { empties := 0
      content := bytesOf "HTTP/1.1 100 Continue"
      parts := (bytesOf "HTTP/1.1", bytesOf "100", bytesOf "Continue")
      fields := []
      start := ⟨by decide, by decide, by decide⟩ }
  interim := by decide

def okAnswer : Bytes := bytesOf "HTTP/1.1 200 OK\r\nContent-Length: 3\r\n\r\n"

/-- Cut inside the interim response and inside the body behind it. -/
def cutReads : List Bytes :=
  [bytesOf "HTTP/1.1 100 Con", bytesOf "tinue\r\n\r",
    [charLf] ++ okAnswer ++ bytesOf "ab", bytesOf "c"]

/-- The answer to a HEAD request of which the status code says that no body follows. -/
def notModifiedAnswer : Bytes := bytesOf "HTTP/1.1 304 Not Modified\r\nContent-Length: 3\r\n\r\n"

theorem saysNoBody_notModifiedAnswer {head : Head} {rest : Bytes}
    (hmessage : notModifiedAnswer = head.text ++ (crlf ++ rest)) : head.SaysNoBody := by
  have hread := (run_complete true zeroedParser hmessage).2.code
  have hcode : (headerMachine.run notModifiedAnswer (freshParser true true zeroedParser)).2.code
      = some (bytesOf "304") := by decide +kernel
  rw [hcode, Option.some.injEq] at hread
  rw [Head.SaysNoBody, ← hread]
  exact .inl (by decide)

/-- An answer with a body and one without, behind an interim response that is cut. -/
theorem transparent_cutReads :
    (receive cutReads (HttpResponse.init false zeroedParser)).code = 1
      ∧ Transparent continueInterim.text.length (receive cutReads (HttpResponse.init false zeroedParser))
        (receive (dropBytes continueInterim.text.length cutReads) (HttpResponse.init false zeroedParser))
      ∧ Transparent continueInterim.text.length
        (receive [continueInterim.text ++ notModifiedAnswer] (HttpResponse.init true zeroedParser))
        (receive (dropBytes continueInterim.text.length [continueInterim.text ++ notModifiedAnswer])
          (HttpResponse.init true zeroedParser)) := by
  refine ⟨by decide +kernel, ?_, ?_⟩
  · exact (transparent_iff false zeroedParser continueInterim (okAnswer ++ bytesOf "abc") cutReads (by decide +kernel)
      (by decide +kernel)).mpr (by simp)
  · exact (transparent_iff true zeroedParser continueInterim notModifiedAnswer _ (by simp) (by decide +kernel)).mpr
      fun _ _ _ hmessage => saysNoBody_notModifiedAnswer hmessage

/-- The answer to a HEAD request: complete with its header, but not behind an interim response. -/
theorem not_transparent_okAnswer :
    let both := receive [continueInterim.text ++ okAnswer] (HttpResponse.init true zeroedParser)
    let alone := receive [okAnswer] (HttpResponse.init true zeroedParser)
    both.code = 0 ∧ alone.code = 1 ∧ ¬ Transparent continueInterim.text.length both alone := by
  have hboth : (receive [continueInterim.text ++ okAnswer]
      (HttpResponse.init true zeroedParser)).code = 0 := by
    decide +kernel
  have halone : (receive [okAnswer] (HttpResponse.init true zeroedParser)).code = 1 := by
    decide +kernel
  refine ⟨hboth, halone, fun htransparent => ?_⟩
  have hcode := htransparent.code
  rw [hboth, halone] at hcode
  cases hcode

end WorkflowModel.Http
