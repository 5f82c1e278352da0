import WorkflowModel.Proof.HttpHeaderStore

/-!
# What `encode` writes

`encode` fills the array from its start, one index after the other, and stays within it: the loop over the
headers stops at `max`, and the last place takes all blocks that are left. The blocks of the body that it
puts together hold the same bytes, so the message can be encoded again.
-/

namespace WorkflowModel.Http

open WorkflowModel

/-- The lines that `http_parser_add_header` and `http_parser_set_header` can leave, for lengths that are
`int`s. -/
inductive HeaderLine.Written : HeaderLine → Prop
  | add (name value : Bytes) : name.length < 2 ^ 31 → value.length < 2 ^ 31 → Written (newLine name value)
  | set (line : HeaderLine) (name value : Bytes) : Written line → line.nameLen = name.length →
      value.length < 2 ^ 31 → Written (line.setValue name value)

theorem HeaderLine.Written.spells {line : HeaderLine} (h : line.Written) :
    line.Spells line.pair ∧ line.name.length < 2 ^ 31 ∧ line.value.length < 2 ^ 31 := by
  induction h with
  | add name value hname hvalue =>
      have hspells := newLine_spells hname hvalue
      rw [hspells.pair_eq, hspells.name_eq, hspells.value_eq]
      exact ⟨hspells, hname, hvalue⟩
  | set line name value _ hlength hvalue ih =>
      obtain ⟨hold, hname, -⟩ := ih
      obtain ⟨spelled, hspells, hspelled⟩ := hold.setValue_of_length hlength hvalue
      have hshort : spelled.length < 2 ^ 31 := by
        have hsame : line.nameLen = line.name.length := hold.nameLen
        obtain rfl | rfl := hspelled
        · omega
        · exact hname
      rw [hspells.pair_eq, hspells.name_eq, hspells.value_eq]
      exact ⟨hspells, hshort, hvalue⟩

/-- Each call of the two functions keeps a header list that they wrote. -/
theorem written_callHeader {p : HttpParser} (h : ∀ line ∈ p.headerList, line.Written) {call : HeaderCall}
    (hcall : call.Plain) : ∀ line ∈ (callHeader p call).headerList, line.Written := by
  rw [headerList_callHeader]
  cases call with
  | add name value =>
      obtain ⟨-, -, hname, hvalue⟩ := hcall
      exact List.forall_mem_append.2 ⟨h, List.forall_mem_singleton.2 (.add name value hname hvalue)⟩
  | set name value =>
      obtain ⟨-, -, hname, hvalue⟩ := hcall
      generalize p.headerList = lines at h
      dsimp only
      induction lines with
      | nil => exact List.forall_mem_singleton.2 (.add name value hname hvalue)
      | cons line rest ih =>
          obtain ⟨hline, hrest⟩ := List.forall_mem_cons.1 h
          rw [linesAfterSet_cons]
          split_ifs with hnamed
          · have hlength : line.nameLen = name.length := by
              simp only [HeaderLine.isNamed, Bool.and_eq_true, beq_iff_eq] at hnamed
              exact hnamed.1
            exact List.forall_mem_cons.2 ⟨.set line name value hline hlength hvalue, hrest⟩
          · exact List.forall_mem_cons.2 ⟨hline, ih hrest⟩

/-- The entries of a list at the indices from `i` on. -/
def placed (i : Nat) (vectors : List Bytes) : List (Nat × Bytes) := (List.range' i vectors.length).zip vectors

theorem placed_cons (i : Nat) (vector : Bytes) (rest : List Bytes) :
    placed i (vector :: rest) = (i, vector) :: placed (i + 1) rest := rfl

theorem placed_append (i : Nat) (first second : List Bytes) :
    placed i (first ++ second) = placed i first ++ placed (i + first.length) second := by
  induction first generalizing i with
  | nil => rfl
  | cons vector rest ih =>
      rw [List.cons_append, placed_cons, placed_cons, ih, List.cons_append, List.length_cons]
      congr 3
      omega

theorem index_lt_of_mem_placed {i : Nat} {vectors : List Bytes} {w : Nat × Bytes} (h : w ∈ placed i vectors) :
    w.1 < i + vectors.length := by
  have hindex := (List.of_mem_zip h).1
  rw [List.mem_range'_1] at hindex
  exact hindex.2

theorem headerWrites_eq (max : Int) : ∀ (i : Nat) (lines : List HeaderLine),
    headerWrites max i lines = placed i (headerVectors max i lines) := by
  intro i lines
  induction lines generalizing i with
  | nil => rfl
  | cons line rest ih =>
      rw [headerWrites, headerVectors]
      split_ifs
      · rfl
      · rw [ih, placed_cons]

theorem bodyWrites_eq (max : Int) : ∀ (i size : Nat) (blocks : List Bytes),
    bodyWrites max i size blocks = placed i (bodyVectors max i size blocks) := by
  intro i size blocks
  induction blocks generalizing i size with
  | nil => rfl
  | cons block rest ih =>
      rw [bodyWrites, bodyVectors]
      split_ifs
      · rfl
      · rw [ih, placed_cons]

theorem length_headerVectors_le {max : Int} : ∀ {i : Nat} {lines : List HeaderLine}, (i : Int) ≤ max →
    (i : Int) + (headerVectors max i lines).length ≤ max := by
  intro i lines
  induction lines generalizing i with
  | nil =>
      intro hi
      simpa [headerVectors] using hi
  | cons line rest ih =>
      intro hi
      rw [headerVectors]
      split_ifs with hmax
      · simpa using hi
      · have hrest := ih (i := i + 1) (by push_cast; omega)
        rw [List.length_cons]
        push_cast at hrest ⊢
        omega

theorem length_headerVectors_le_length (max : Int) (i : Nat) (lines : List HeaderLine) :
    (headerVectors max i lines).length ≤ lines.length := by
  induction lines generalizing i with
  | nil => exact le_rfl
  | cons line rest ih =>
      rw [headerVectors]
      split_ifs
      · exact Nat.zero_le _
      · exact Nat.succ_le_succ (ih (i + 1))

/-- The loop over the blocks ends at `max` at the latest, if one place is free for them. -/
theorem length_bodyVectors_le {max : Int} : ∀ (i size : Nat) (blocks : List Bytes), (i : Int) < max →
    (i : Int) + (bodyVectors max i size blocks).length ≤ max := by
  intro i size blocks
  induction blocks generalizing i size with
  | nil =>
      intro hi
      simp only [bodyVectors, List.length_nil]
      omega
  | cons block rest ih =>
      intro hi
      rw [bodyVectors]
      split_ifs with hlast
      · simp only [List.length_singleton]
        omega
      · rw [List.length_cons]
        by_cases hend : (i : Int) + 1 = max
        · have hempty : rest = [] := by
            by_contra hne
            exact hlast ⟨hend, hne⟩
          simp only [hempty, bodyVectors, List.length_nil]
          omega
        · have hrest := ih (i + 1) (size - block.length) (by push_cast; omega)
          push_cast at hrest ⊢
          omega

section Encode

variable (max : Int) {msg : HttpMessage} {parts : Bytes × Bytes × Bytes}

/-- The bytes of a message: the start line, the headers, an empty line and the body. -/
def HttpMessage.textOf (msg : HttpMessage) (parts : Bytes × Bytes × Bytes) : Bytes :=
  joinParts (cString parts.1, cString parts.2.1, cString parts.2.2) ++ crlf
    ++ (msg.parser.headerList.map HeaderLine.pair).flatMap headerText ++ crlf ++ msg.body

/-- There is no room exactly where the headers leave fewer than two places. -/
theorem encode_overflow_iff (hstart : startLine msg.parser = some parts) :
    msg.encode max = .error .overflow ↔ max - (6 + msg.parser.headerList.length) < 2 := by
  obtain ⟨part1, part2, part3⟩ := parts
  have hcases := headerVectors_cases max msg.parser.headerList 6
  simp only [HttpMessage.encode, hstart]
  split_ifs with hoverflow
  · refine iff_of_true rfl ?_
    obtain hall | hend := hcases
    · rw [hall, List.length_map] at hoverflow
      push_cast at hoverflow
      omega
    · have hle := length_headerVectors_le_length max 6 msg.parser.headerList
      push_cast at hend
      omega
  · refine iff_of_false (by simp) ?_
    obtain hall | hend := hcases
    · rw [hall, List.length_map] at hoverflow
      push_cast at hoverflow
      omega
    · push_cast at hoverflow hend
      omega

/-- The places that a call assigns, one after the other, and what it puts there. -/
theorem encodeWrites_eq (hstart : startLine msg.parser = some parts) :
    (∃ vectors after, msg.encode max = .ok (vectors, after) ∧ msg.encodeWrites max = placed 0 vectors
        ∧ (6 ≤ max → (vectors.length : Int) ≤ max) ∧ after.parser = msg.parser ∧ after.body = msg.body)
      ∨ (msg.encode max = .error .overflow ∧ ∃ vectors, msg.encodeWrites max = placed 0 vectors
        ∧ (6 ≤ max → (vectors.length : Int) ≤ max)) := by
  obtain ⟨part1, part2, part3⟩ := parts
  let start := [cString part1, [charSpace], cString part2, [charSpace], cString part3, crlf]
  let headers := headerVectors max 6 msg.parser.headerList
  have hheaders : headerWrites max 6 msg.parser.headerList = placed 6 headers := headerWrites_eq ..
  have hcount : (placed 6 headers).length = headers.length := by simp [placed]
  have hbound : 6 ≤ max → 6 + (headers.length : Int) ≤ max := fun hmax =>
    length_headerVectors_le (i := 6) (by simpa)
  simp only [HttpMessage.encode, HttpMessage.encodeWrites, hstart, hheaders, hcount]
  split_ifs with hoverflow
  · right
    refine ⟨rfl, start ++ headers, ?_, ?_⟩
    · rw [placed_append]
      rfl
    · intro hmax
      have := hbound hmax
      simp only [start, List.length_append, List.length_cons, List.length_nil]
      push_cast
      omega
  · left
    refine ⟨_, _, rfl, ?_, ?_, rfl, bodyVectors_flatten max _ _ msg.size_eq⟩
    · rw [bodyWrites_eq, placed_append, placed_append, placed_append]
      simp only [List.length_append, List.length_cons, List.length_nil, Nat.zero_add, headers]
      rfl
    · intro _
      have hbody := length_bodyVectors_le (6 + (headerVectors max 6 msg.parser.headerList).length + 1)
        msg.outputBodySize msg.outputBody (by push_cast at hoverflow ⊢; exact not_le.1 hoverflow)
      simp only [List.length_append, List.length_cons, List.length_nil]
      push_cast at hbody ⊢
      omega

/-- `encode` stays within the array, fails exactly where there is no room, and else fills it from the start
with the text of the message. It can be called again with the same result. -/
theorem encode_exact (hmax : 6 ≤ max) (hlines : ∀ line ∈ msg.parser.headerList, line.Written)
    (hstart : startLine msg.parser = some parts) :
    (∀ w ∈ msg.encodeWrites max, (w.1 : Int) < max)
      ∧ (msg.encode max = .error .overflow ↔ max - (6 + msg.parser.headerList.length) < 2)
      ∧ (¬ max - (6 + msg.parser.headerList.length) < 2 → ∃ vectors after,
          msg.encode max = .ok (vectors, after) ∧ (vectors.length : Int) ≤ max
            ∧ msg.encodeWrites max = placed 0 vectors ∧ vectors.flatten = msg.textOf parts
            ∧ after.body = msg.body
            ∧ ∃ vectors' after', after.encode max = .ok (vectors', after')
              ∧ vectors'.flatten = vectors.flatten) := by
  have hiff := encode_overflow_iff max hstart
  have htext : ∀ {m after : HttpMessage} {vectors : List Bytes}, m.parser = msg.parser → m.body = msg.body →
      m.encode max = .ok (vectors, after) → vectors.flatten = msg.textOf parts := by
    intro m after vectors hparser hbody hencode
    obtain ⟨-, hflatten⟩ := encode_ok hencode (by rw [hparser]; exact hstart)
    rw [hflatten, hparser, flatten_vectors fun line hline => (hlines line hline).spells, hbody]
    simp only [HttpMessage.textOf, List.append_assoc]
  refine ⟨?_, hiff, ?_⟩
  · intro w hw
    obtain ⟨vectors, after, -, hwrites, hlength, -⟩ | ⟨-, vectors, hwrites, hlength⟩ :=
      encodeWrites_eq max hstart
    all_goals
      rw [hwrites] at hw
      have hindex := index_lt_of_mem_placed hw
      have := hlength hmax
      omega
  · intro hroom
    obtain ⟨vectors, after, hencode, hwrites, hlength, hparser, hbody⟩ | ⟨hoverflow, -⟩ :=
      encodeWrites_eq max hstart
    · refine ⟨vectors, after, hencode, hlength hmax, hwrites, htext rfl rfl hencode, hbody, ?_⟩
      -- the parser is the same, so there is room again
      have hstart' : startLine after.parser = some parts := by rw [hparser]; exact hstart
      obtain ⟨vectors', after', hencode', -⟩ | ⟨hoverflow, -⟩ := encodeWrites_eq max hstart'
      · exact ⟨vectors', after', hencode', by
          rw [htext hparser hbody hencode', htext rfl rfl hencode]⟩
      · rw [encode_overflow_iff max hstart', hparser] at hoverflow
        exact absurd hoverflow hroom
    · exact absurd (hiff.1 hoverflow) hroom

end Encode

/-- A response with one header and three blocks, two of which share the last place. -/
def threeBlocks : HttpMessage :=
  ((((HttpMessage.init true zeroedParser).appendOutputBody [97]).appendOutputBody [98]).appendOutputBody [99])

def threeBlocksAnswer : HttpMessage :=
  { threeBlocks with
    parser := httpParserAddHeader (bytesOf "A") (bytesOf "b") (httpParserSetVersion (bytesOf "HTTP/1.1")
      (httpParserSetCode (bytesOf "200") (httpParserSetPhrase (bytesOf "OK") threeBlocks.parser))) }

theorem encode_exact_threeBlocksAnswer :
    (threeBlocksAnswer.encode 10).toOption.map (fun result => result.2.outputBody) = some [[97], [98, 99]]
      ∧ ∃ vectors after, threeBlocksAnswer.encode 10 = .ok (vectors, after) ∧ (vectors.length : Int) ≤ 10
          ∧ threeBlocksAnswer.encodeWrites 10 = placed 0 vectors
          ∧ vectors.flatten = threeBlocksAnswer.textOf (bytesOf "HTTP/1.1", bytesOf "200", bytesOf "OK")
          ∧ after.body = threeBlocksAnswer.body
          ∧ ∃ vectors' after', after.encode 10 = .ok (vectors', after') ∧ vectors'.flatten = vectors.flatten := by
  have hlines : ∀ line ∈ threeBlocksAnswer.parser.headerList, line.Written := by
    have hplain : (HeaderCall.add (bytesOf "A") (bytesOf "b")).Plain :=
      ⟨by decide, by decide, by decide, by decide⟩
    have hnone : ∀ line ∈ ([] : List HeaderLine), line.Written :=
      fun line hline => absurd hline List.not_mem_nil
    exact written_callHeader hnone hplain
  have hstart : startLine threeBlocksAnswer.parser
      = some (bytesOf "HTTP/1.1", bytesOf "200", bytesOf "OK") := by decide +kernel
  exact ⟨by decide +kernel, (encode_exact 10 (by decide) hlines hstart).2.2 (by decide +kernel)⟩

end WorkflowModel.Http
