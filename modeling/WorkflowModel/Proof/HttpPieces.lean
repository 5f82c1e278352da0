import WorkflowModel.Proof.HttpReceive

/-!
# Texts that end a message

A call that asks for more and the next one leave the parser where one call on both pieces leaves it. So a text that
ends a message for a fresh parser, whatever follows it, ends it for a parser that gets the text in pieces, at the
same byte and with the same message.
-/

namespace WorkflowModel.Http

open WorkflowModel Resume

def SameAnswer (x y : Int × Nat × HttpParser) : Prop := x.1 = y.1 ∧ Same x.2.2 y.2.2

theorem SameAnswer.trans {x y z : Int × Nat × HttpParser} (h : SameAnswer x y) (h' : SameAnswer y z) :
    SameAnswer x z :=
  ⟨h.1.trans h'.1, Same.trans h.2 h'.2⟩

section Calls

variable {isResp zeroBody : Bool} {p : HttpParser} {buf : Bytes}

/-- The second of two calls goes on like one call on both pieces. -/
theorem append_append_same (hp : Between isResp zeroBody p) (tail : Bytes)
    (hsize : (p.msgbuf ++ (buf ++ tail)).length < 2 ^ 63) (h : (httpParserAppendMessage buf p).1 = 0) :
    SameAnswer (httpParserAppendMessage tail (httpParserAppendMessage buf p).2.2)
      (httpParserAppendMessage (buf ++ tail) p) := by
  have hp' := hp.appendBytes buf
  have hzero : (callEnd (appendBytes buf p)).1 = 0 := by rw [← append_code _ hp, h]
  have hq := hp'.callEnd hzero
  obtain ⟨hqready, hqmsg, hresume⟩ := callEnd_append_of_zero hp'.ready tail hzero
  have hlonger := callEnd_congr (same_appendBytes_append p buf tail) (hp'.ready.withMessage_append tail)
  rw [append_of_zero hp hzero]
  dsimp only
  generalize (callEnd (appendBytes buf p)).2.2 = q at hq hqready hqmsg hresume ⊢
  have hsecond := callEnd_congr (same_appendBytes q tail) (hqready.withMessage_append tail)
  rw [hqmsg] at hsecond
  have hends : SameEnd (callEnd (appendBytes tail q)) (callEnd (appendBytes (buf ++ tail) p)) :=
    hsecond.symm.trans (hresume.symm.trans hlonger)
  have hsizeq : (q.msgbuf ++ tail).length < 2 ^ 63 := by
    rw [hqmsg, appendBytes_msgbuf, List.append_assoc]
    exact hsize
  rcases callEnd_codes (hq.appendBytes tail).ready with hcode | hcode | hcode
  · rw [append_of_zero hq hcode, append_of_zero hp (hends.1.symm.trans hcode)]
    exact ⟨rfl, hends.2.2⟩
  · rw [append_of_one hp (hends.1.symm.trans hcode) hsize, append_of_one hq hcode hsizeq, ← hends.2.1 hcode]
    exact ⟨rfl, Same.endAt hends.2.2.1 (by rw [hends.2.2.2])⟩
  · rw [append_of_bad hq hcode, append_of_bad hp (hends.1.symm.trans hcode)]
    exact ⟨rfl, hends.2.2⟩

/-- A message that a call completes lies in the buffer as a whole, and the call has used what it did not have
before. -/
theorem msgsize_of_one (hp : Between isResp zeroBody p) (buf : Bytes) (hsize : (p.msgbuf ++ buf).length < 2 ^ 63)
    (h : (httpParserAppendMessage buf p).1 = 1) :
    (httpParserAppendMessage buf p).2.2.msgsize ≤ p.msgsize + buf.length
      ∧ (httpParserAppendMessage buf p).2.1
          = sizeSub (httpParserAppendMessage buf p).2.2.msgsize p.msgsize := by
  have hone : (callEnd (appendBytes buf p)).1 = 1 := by rw [← append_code _ hp, h]
  obtain ⟨hmsg, hinside⟩ := callEnd_inside (hp.appendBytes buf).ready
  have hle := hinside hone
  have hcount : (appendBytes buf p).msgsize = p.msgsize + buf.length := by
    simp [HttpParser.msgsize, appendBytes]
  have hend : ((callEnd (appendBytes buf p)).2.2.endAt (callEnd (appendBytes buf p)).2.1).msgsize
      = (callEnd (appendBytes buf p)).2.1 := by
    rw [HttpParser.msgsize, HttpParser.endAt, List.length_take, hmsg]
    exact Nat.min_eq_left hle
  rw [append_of_one hp hone hsize]
  dsimp only
  rw [hend]
  exact ⟨hcount ▸ hle, rfl⟩

end Calls

section Pieces

variable {isResp zeroBody : Bool} {memory p : HttpParser} {stream buf more rest text : Bytes}
  {Good : HttpParser → Prop}

/-- A parser that has been fed `stream` does with what follows what a fresh one does with `stream` in front. -/
structure FedWith (isResp zeroBody : Bool) (memory : HttpParser) (stream : Bytes) (p : HttpParser) : Prop where
  waiting : Waiting isResp zeroBody stream p
  agrees : ∀ tail, (stream ++ tail).length < 2 ^ 63 → SameAnswer (httpParserAppendMessage tail p)
    (httpParserAppendMessage (stream ++ tail) (freshParser isResp zeroBody memory))

theorem fedWith_freshParser (isResp zeroBody : Bool) (memory : HttpParser) :
    FedWith isResp zeroBody memory [] (freshParser isResp zeroBody memory) :=
  ⟨waiting_freshParser isResp zeroBody memory, fun _ _ => ⟨rfl, same_refl _⟩⟩

theorem FedWith.append (h : FedWith isResp zeroBody memory stream p) (hcode : (httpParserAppendMessage buf p).1 = 0) :
    FedWith isResp zeroBody memory (stream ++ buf) (httpParserAppendMessage buf p).2.2 := by
  refine ⟨waiting_append h.waiting hcode, fun tail hsize => ?_⟩
  rw [List.append_assoc] at hsize ⊢
  exact (append_append_same h.waiting.between tail (by rw [h.waiting.message]; exact hsize) hcode).trans
    (h.agrees (buf ++ tail) hsize)

/-- The text is a message for a fresh parser, whatever follows it. -/
structure Ends (isResp zeroBody : Bool) (memory : HttpParser) (text : Bytes) (Good : HttpParser → Prop) : Prop where
  nonempty : text ≠ []
  stops : ∀ rest, (text ++ rest).length < 2 ^ 63 →
    ∃ q, httpParserAppendMessage (text ++ rest) (freshParser isResp zeroBody memory) = (1, text.length, q) ∧ Good q
  same : ∀ p q, Same p q → Good q → Good p

theorem length_between_freshParser (isResp zeroBody : Bool) (memory : HttpParser) :
    (freshParser isResp zeroBody memory).msgsize = 0 :=
  congrArg List.length (waiting_freshParser isResp zeroBody memory).message

theorem msgsize_of_append {q : HttpParser} (rest : Bytes) (hsize : (text ++ rest).length < 2 ^ 63)
    (h : httpParserAppendMessage (text ++ rest) (freshParser isResp zeroBody memory) = (1, text.length, q)) :
    q.msgsize = text.length := by
  have hfresh := between_freshParser isResp zeroBody memory
  have hnil := (waiting_freshParser isResp zeroBody memory).message
  obtain ⟨hle, hused⟩ := msgsize_of_one hfresh (text ++ rest) (by rw [hnil]; exact hsize) (by rw [h])
  rw [h, length_between_freshParser, Nat.zero_add] at hle
  rw [h, length_between_freshParser] at hused
  dsimp only at hle hused
  rw [sizeSub_of_le (Nat.zero_le _) (by unfold sizeModulus; omega), Nat.sub_zero] at hused
  exact hused.symm

/-- Before the end of the text the calls ask for more. -/
theorem Ends.append_of_part (h : Ends isResp zeroBody memory text Good)
    (hfed : FedWith isResp zeroBody memory stream p) (hsize : text.length < 2 ^ 63)
    (htext : stream ++ buf ++ more = text) (hmore : more ≠ []) : (httpParserAppendMessage buf p).1 = 0 := by
  have hfresh := between_freshParser isResp zeroBody memory
  have hnil := (waiting_freshParser isResp zeroBody memory).message
  have hpositive := List.length_pos_iff.mpr hmore
  have hlength := congrArg List.length htext
  rw [List.length_append] at hlength
  have hanswer := hfed.agrees buf (by omega)
  by_contra hcode
  rw [hanswer.1] at hcode
  have hsame := append_append_of_ne_zero hfresh more (by
    rw [hnil, List.nil_append, htext]
    exact hsize) hcode
  obtain ⟨q, hq, -⟩ := h.stops [] (by rw [List.append_nil]; exact hsize)
  rw [List.append_nil] at hq
  rw [htext, hq] at hsame
  have hone : (httpParserAppendMessage (stream ++ buf) (freshParser isResp zeroBody memory)).1 = 1 := hsame.1
  have hparser := (hsame.2 (.inr hone)).2
  obtain ⟨hle, -⟩ := msgsize_of_one hfresh (stream ++ buf) (by rw [hnil, List.nil_append]; omega) hone
  have hwhole := msgsize_of_append [] (by rw [List.append_nil]; exact hsize)
    (by rw [List.append_nil]; exact hq)
  rw [length_between_freshParser, HttpParser.msgsize, hparser.2, ← HttpParser.msgsize, hwhole] at hle
  omega

/-- The call that gets the end of the text uses the bytes up to there. -/
theorem Ends.append_of_whole (h : Ends isResp zeroBody memory text Good)
    (hfed : FedWith isResp zeroBody memory stream p) (hsize : (text ++ rest).length < 2 ^ 63)
    (htext : stream ++ buf = text ++ rest) (hshort : stream.length ≤ text.length) :
    ∃ q, httpParserAppendMessage buf p = (1, text.length - stream.length, q) ∧ Good q := by
  obtain ⟨q, hq, hgood⟩ := h.stops rest hsize
  have hanswer := hfed.agrees buf (by rw [htext]; exact hsize)
  rw [htext, hq] at hanswer
  have hmsg := hfed.waiting.message
  have hone : (httpParserAppendMessage buf p).1 = 1 := hanswer.1
  obtain ⟨-, hused⟩ := msgsize_of_one hfed.waiting.between buf (by rw [hmsg, htext]; exact hsize) hone
  have hwhole := msgsize_of_append rest hsize hq
  have hbefore : p.msgsize = stream.length := congrArg List.length hmsg
  have hafter : (httpParserAppendMessage buf p).2.2.msgsize = text.length := by
    rw [HttpParser.msgsize, hanswer.2.2]
    exact hwhole
  rw [List.length_append] at hsize
  rw [hafter, hbefore, sizeSub_of_le hshort (by unfold sizeModulus; omega)] at hused
  exact ⟨_, Prod.ext hone (Prod.ext hused rfl), h.same _ _ hanswer.2 hgood⟩

/-- By induction on the fragments: each of them brings a part of the text, and one brings its end. -/
theorem Ends.feed_of_fedWith (h : Ends isResp zeroBody memory text Good) : ∀ (fragments : List Bytes)
    {stream : Bytes} {p : HttpParser}, FedWith isResp zeroBody memory stream p →
      stream ++ fragments.flatten = text ++ rest → stream.length < text.length → (text ++ rest).length < 2 ^ 63 →
      (feed fragments p).code = 1 ∧ stream.length + (feed fragments p).consumed = text.length
        ∧ Good (feed fragments p).parser := by
  intro fragments
  induction fragments with
  | nil =>
      intro stream p _ hstream hshort _
      have hlength := congrArg List.length hstream
      simp only [List.flatten_nil, List.append_nil, List.length_append] at hlength
      omega
  | cons buf fragments ih =>
      intro stream p hfed hstream hshort hsize
      rw [List.flatten_cons, ← List.append_assoc] at hstream
      by_cases hlong : text.length ≤ (stream ++ buf).length
      · obtain ⟨behind, hbehind, hrest⟩ := exists_append_of_append_eq text rest hstream hlong
        have hsize' : (text ++ behind).length < 2 ^ 63 := by
          rw [hrest, List.length_append, List.length_append] at hsize
          rw [List.length_append]
          omega
        obtain ⟨q, hq, hgood⟩ := h.append_of_whole hfed hsize' hbehind hshort.le
        rw [feed_of_ne_zero (by rw [hq]; simp only; decide), hq]
        exact ⟨rfl, Nat.add_sub_cancel' hshort.le, hgood⟩
      · obtain ⟨more, hmore, -⟩ := exists_append_of_append_eq (stream ++ buf) fragments.flatten hstream.symm
          (Nat.not_le.mp hlong).le
        have hne : more ≠ [] := by
          rintro rfl
          rw [List.append_nil] at hmore
          exact hlong (congrArg List.length hmore).le
        have htext : text.length < 2 ^ 63 := by
          rw [List.length_append] at hsize
          omega
        have hcode := h.append_of_part hfed htext hmore.symm hne
        have hcount := (append_more hfed.waiting.between hcode).1
        obtain ⟨hone, hconsumed, hgood⟩ := ih (hfed.append hcode) hstream (Nat.not_le.mp hlong) hsize
        rw [feed_of_zero hcode]
        refine ⟨hone, ?_, hgood⟩
        dsimp only
        rw [hcount, ← hconsumed, List.length_append, Nat.add_assoc]

theorem Ends.feed {fragments : List Bytes} (h : Ends isResp zeroBody memory text Good)
    (hfragments : fragments.flatten = text ++ rest) (hsize : fragments.flatten.length < 2 ^ 63) :
    (feed fragments (freshParser isResp zeroBody memory)).code = 1
      ∧ (feed fragments (freshParser isResp zeroBody memory)).consumed = text.length
      ∧ Good (feed fragments (freshParser isResp zeroBody memory)).parser := by
  have hpositive := List.length_pos_iff.mpr h.nonempty
  rw [hfragments] at hsize
  obtain ⟨hone, hconsumed, hgood⟩ := h.feed_of_fedWith fragments (fedWith_freshParser isResp zeroBody memory)
    hfragments hpositive hsize
  rw [List.length_nil, Nat.zero_add] at hconsumed
  exact ⟨hone, hconsumed, hgood⟩

end Pieces

end WorkflowModel.Http
