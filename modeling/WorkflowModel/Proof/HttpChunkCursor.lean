import WorkflowModel.Http.ChunkCursor
import WorkflowModel.Proof.HttpChunkTrace
import WorkflowModel.Proof.Strtol

/-!
# The chunk cursor and the chunk parser

The cursor reads the size lines a second time, from the body and without a bound. For a line that the
parser has accepted `strtol` stops at the same place on both, since a carriage return is no digit. What
can differ is the search for the line end: it stops at a NUL, which the parser lets pass behind the
digits. So the cursor follows the parser exactly when no size line of a chunk holds a NUL.
-/

namespace WorkflowModel.Http

open WorkflowModel Resume

section Strtol

variable {base : Nat} {line : Bytes}

/-- A number that ends inside a line is read alike from the line and from the body. -/
theorem strtol_append (rest : Bytes) (hcr : isDigitOf base charCr = false)
    (h : (strtol base line).2 ≠ 0) :
    strtol base (line ++ charCr :: rest) = strtol base line := by
  have hunsigned := unsignedPart_ne_nil (digitsPart_ne_nil h)
  have hsigned : signedPart line ≠ [] := by
    intro hnil
    simp [unsignedPart, hnil] at hunsigned
  have hshort : (line.takeWhile isSpace).length < line.length := by
    have hpositive := List.length_pos_iff.mpr hsigned
    rw [signedPart, List.length_drop] at hpositive
    omega
  have hends : EndsNumber base charCr := ⟨hcr, by decide, by decide, by decide⟩
  apply hends.strtol_append
  rw [List.takeWhile_append, if_neg (by omega)]

/-- There is no NUL among the bytes that make up a number. -/
theorem exists_front_of_strtol (hbase : isDigitOf base charNul = false)
    (h : (strtol base line).2 ≠ 0) :
    ∃ front rest, line = front ++ rest ∧ front.length = (strtol base line).2 ∧ charNul ∉ front := by
  have hdigits := digitsPart_ne_nil h
  have hblanks : charNul ∉ line.takeWhile isSpace := fun hmem =>
    absurd (List.mem_takeWhile_imp hmem) (by decide)
  have hsign : charNul ∉ (signedPart line).take (signLength (signedPart line)) := by
    cases signedPart line with
    | nil => simp
    | cons c more =>
        simp only [signLength]
        split_ifs with hc
        · rcases hc with rfl | rfl <;> simp [charNul]
        · simp
  have hmark : ∀ s : Bytes, charNul ∉ s.take (hexMarkLength base s) := by
    intro s
    unfold hexMarkLength
    split
    · split_ifs with hc
      · obtain ⟨-, rfl, hx, -⟩ := hc
        simp only [List.take_succ_cons, List.take_zero, List.mem_cons, List.not_mem_nil, or_false,
          not_or]
        refine ⟨by decide, ?_⟩
        rintro rfl
        exact absurd hx (by decide)
      · simp
    · simp
  have hdigitsNul : charNul ∉ digitsPart base line := fun hmem =>
    absurd (List.mem_takeWhile_imp hmem) (by rw [hbase]; decide)
  refine ⟨line.takeWhile isSpace ++ ((signedPart line).take (signLength (signedPart line)) ++
    ((unsignedPart line).take (hexMarkLength base (unsignedPart line)) ++ digitsPart base line)),
    ((unsignedPart line).drop (hexMarkLength base (unsignedPart line))).dropWhile (isDigitOf base),
    ?_, ?_, ?_⟩
  · simp only [List.append_assoc]
    rw [digitsPart, List.takeWhile_append_dropWhile, List.take_append_drop, unsignedPart,
      List.take_append_drop, signedPart]
    have hblanks' := List.prefix_iff_eq_take.mp (List.takeWhile_prefix isSpace (l := line))
    calc line
        = line.take (line.takeWhile isSpace).length ++ line.drop (line.takeWhile isSpace).length :=
          (List.take_append_drop _ line).symm
      _ = line.takeWhile isSpace ++ line.drop (line.takeWhile isSpace).length := by rw [← hblanks']
  · rw [strtol_eq_parts, if_neg hdigits]
    simp only [List.length_append, List.length_take, Nat.min_eq_left (signLength_le _),
      Nat.min_eq_left (hexMarkLength_le _ _)]
    omega
  · simp only [List.mem_append, not_or]
    exact ⟨hblanks, hsign, hmark _, hdigitsNul⟩

theorem strtol_snd_ne_zero {s : Bytes} (h : (strtol base s).1 ≠ 0) : (strtol base s).2 ≠ 0 := by
  by_cases hdigits : digitsPart base s = []
  · rw [strtol_eq_parts, if_pos hdigits] at h
    exact absurd rfl h
  · have hlength := List.length_pos_iff.mpr hdigits
    rw [strtol_eq_parts, if_neg hdigits]
    dsimp only
    omega

theorem strtol_mem_long (base : Nat) (s : Bytes) :
    longMin ≤ (strtol base s).1 ∧ (strtol base s).1 ≤ longMax := by
  rw [strtol_eq_parts]
  unfold longMin longMax
  split_ifs
  · exact ⟨by decide, by decide⟩
  · dsimp only
    omega
  · dsimp only
    omega

theorem sizeOfInt_strtol {s : Bytes} {size : Nat} (h : sizeOfInt (strtol 16 s).1 = size)
    (hsmall : size < 2 ^ 63) : (strtol 16 s).1 = size := by
  obtain ⟨hmin, hmax⟩ := strtol_mem_long 16 s
  unfold longMin longMax at *
  unfold sizeOfInt sizeModulus at h
  omega

theorem sizeOfInt_strtol_ne_zero {s : Bytes} (h : (strtol 16 s).1 ≠ 0) : sizeOfInt (strtol 16 s).1 ≠ 0 := by
  intro hzero
  exact h (sizeOfInt_strtol hzero (by decide))

end Strtol

theorem strchr_append {c : UInt8} {l : Bytes} (rest : Bytes) (hc : c ∉ l) :
    strchr c (l ++ c :: rest) = if charNul ∈ l then none else some l.length := by
  induction l with
  | nil => simp [strchr]
  | cons d l ih =>
      rw [List.mem_cons, not_or] at hc
      obtain ⟨hd, hl⟩ := hc
      by_cases hnul : d = charNul
      · subst hnul
        simp [strchr, Ne.symm hd]
      · rw [List.cons_append, strchr, if_neg (Ne.symm hd), if_neg hnul, ih hl]
        by_cases hmem : charNul ∈ l
        · simp [hmem]
        · simp [hmem, Ne.symm hnul]

/-- Where `strchr` finds a byte, the bytes before it are neither that byte nor a NUL. -/
theorem exists_of_strchr {c : UInt8} {s : Bytes} {index : Nat} (h : strchr c s = some index) :
    ∃ l r, s = l ++ c :: r ∧ l.length = index ∧ c ∉ l ∧ charNul ∉ l := by
  induction s generalizing index with
  | nil => cases h
  | cons d s ih =>
      rw [strchr] at h
      split_ifs at h with hc hnul
      · obtain rfl := Option.some.inj h
        exact ⟨[], s, by rw [hc]; rfl, rfl, List.not_mem_nil, List.not_mem_nil⟩
      · obtain ⟨before, hbefore, rfl⟩ := Option.map_eq_some_iff.mp h
        obtain ⟨l, r, rfl, hlength, hfree, hplain⟩ := ih hbefore
        refine ⟨d :: l, r, rfl, by rw [List.length_cons, hlength], ?_, ?_⟩
        · rw [List.mem_cons, not_or]
          exact ⟨Ne.symm hc, hfree⟩
        · rw [List.mem_cons, not_or]
          exact ⟨Ne.symm hnul, hplain⟩

/-- A chunk as the cursor reads it. It does not look at the byte behind the carriage return, nor at the
two behind the data. -/
structure ReadChunk where
  number : Bytes
  extension : Bytes
  second : UInt8
  data : Bytes
  skipped : Bytes

def ReadChunk.line (c : ReadChunk) : Bytes := c.number ++ c.extension

def ReadChunk.bytes (c : ReadChunk) : Bytes :=
  c.line ++ charCr :: c.second :: (c.data ++ c.skipped)

/-- The text starts with the chunk, and the number in front of it is the length of its data. -/
structure ReadChunk.Whole (c : ReadChunk) (text : Bytes) : Prop where
  value : strtol 16 text = ((c.data.length : Int), c.number.length)
  nonempty : c.data ≠ []
  extension : charCr ∉ c.extension ∧ charNul ∉ c.extension
  skipped : c.skipped.length = 2

theorem ReadChunk.length_bytes {c : ReadChunk} (hskipped : c.skipped.length = 2) :
    c.bytes.length = c.line.length + c.data.length + 4 := by
  simp only [ReadChunk.bytes, List.length_append, List.length_cons, hskipped]
  omega

theorem ReadChunk.bytes_append (c : ReadChunk) (rest : Bytes) :
    c.bytes ++ rest
      = c.number ++ (c.extension ++ charCr :: (c.second :: (c.data ++ c.skipped ++ rest))) := by
  simp [ReadChunk.bytes, ReadChunk.line]

/-- The cursor stands between two parts of the body and of the NUL behind it. -/
structure StandsAt (cursor : HttpChunkCursor) (before after : Bytes) : Prop where
  memory : cursor.body = some (before ++ after)
  pos : cursor.pos = before.length
  chunked : cursor.chunked = true
  running : cursor.ended = false
  size : (before ++ after).length < sizeModulus

section Next

variable {cursor : HttpChunkCursor} {before : Bytes}

theorem StandsAt.inside {after : Bytes} (h : StandsAt cursor before after) (hne : after ≠ []) :
    ¬ (cursor.body.getD []).length ≤ cursor.pos ∧ (cursor.body.getD []).drop cursor.pos = after := by
  have := List.length_pos_iff.mpr hne
  rw [h.memory, h.pos, Option.getD_some, List.length_append, List.drop_left]
  exact ⟨by omega, rfl⟩

theorem StandsAt.next_of_zero {after : Bytes} (h : StandsAt cursor before after) (hne : after ≠ [])
    (hzero : sizeOfInt (strtol 16 after).1 = 0) :
    cursor.next = (.done, { cursor with ended := true }) := by
  obtain ⟨hinside, hdrop⟩ := h.inside hne
  simp [HttpChunkCursor.next, h.running, h.chunked, hinside, hdrop, hzero]

theorem StandsAt.next_of_found {after : Bytes} {index : Nat} (h : StandsAt cursor before after)
    (hne : after ≠ []) (hsize : sizeOfInt (strtol 16 after).1 ≠ 0)
    (hfound : strchr charCr (after.drop (strtol 16 after).2) = some index) :
    cursor.next =
      (.chunk (before.length + (strtol 16 after).2 + index + 2) (sizeOfInt (strtol 16 after).1),
        { cursor with
          pos := sizeAdd (before.length + (strtol 16 after).2 + index)
            (sizeAdd (sizeOfInt (strtol 16 after).1) 4) }) := by
  obtain ⟨hinside, hdrop⟩ := h.inside hne
  rw [← h.pos]
  simp [HttpChunkCursor.next, h.running, h.chunked, hinside, ← List.drop_drop, hdrop, hsize, hfound]

theorem StandsAt.next_of_hidden {after : Bytes} (h : StandsAt cursor before after) (hne : after ≠ [])
    (hsize : sizeOfInt (strtol 16 after).1 ≠ 0)
    (hnone : strchr charCr (after.drop (strtol 16 after).2) = none) :
    cursor.next = (.fault, cursor) := by
  obtain ⟨hinside, hdrop⟩ := h.inside hne
  simp [HttpChunkCursor.next, h.running, h.chunked, hinside, ← List.drop_drop, hdrop, hsize, hnone]

theorem next_of_last {line tail : Bytes} (h : StandsAt cursor before (line ++ charCr :: tail))
    (hdigits : (strtol 16 line).2 ≠ 0) (hzero : (strtol 16 line).1 = 0) :
    cursor.next = (.done, { cursor with ended := true }) := by
  apply h.next_of_zero (by simp)
  rw [strtol_append tail (by decide) hdigits, hzero]
  decide

/-- A whole chunk is returned and passed. -/
theorem StandsAt.next_of_whole {c : ReadChunk} {tail : Bytes}
    (h : StandsAt cursor before (c.bytes ++ tail)) (hc : c.Whole (c.bytes ++ tail)) :
    cursor.next = (.chunk (before.length + (c.line.length + 2)) c.data.length,
      { cursor with pos := (before ++ c.bytes).length }) := by
  have hsearch : strchr charCr ((c.bytes ++ tail).drop (strtol 16 (c.bytes ++ tail)).2)
      = some c.extension.length := by
    rw [hc.value, ReadChunk.bytes_append, List.drop_left, strchr_append _ hc.extension.1,
      if_neg hc.extension.2]
  have hlength := ReadChunk.length_bytes hc.skipped
  have hline : c.line.length = c.number.length + c.extension.length := List.length_append
  have hdata := List.length_pos_iff.mpr hc.nonempty
  have hfits := h.size
  simp only [List.length_append, hlength] at hfits
  have hsize : sizeOfInt (c.data.length : Int) = c.data.length := by
    unfold sizeOfInt
    unfold sizeModulus at hfits ⊢
    omega
  have hpos : sizeAdd (before.length + c.number.length + c.extension.length) (sizeAdd c.data.length 4)
      = (before ++ c.bytes).length := by
    rw [List.length_append, hlength]
    unfold sizeAdd
    unfold sizeModulus at hfits ⊢
    omega
  have hstart : before.length + c.number.length + c.extension.length + 2
      = before.length + (c.line.length + 2) := by
    omega
  have hnext := h.next_of_found (by simp [ReadChunk.bytes]) (by rw [hc.value, hsize]; omega) hsearch
  rw [hnext, hc.value, hsize, hpos, hstart]

/-- The cursor steps over a chunk as the parser did, unless a NUL hides the end of the size line. -/
theorem next_of_chunk {c : SteppedChunk} {tail : Bytes} (hc : c.Accepted)
    (h : StandsAt cursor before ((Stepped.chunk c).bytes ++ tail)) :
    (charNul ∉ c.line → cursor.next = (.chunk (before.length + (c.line.length + 2)) c.data.length,
      { cursor with pos := (before ++ (Stepped.chunk c).bytes).length })) ∧
    (charNul ∈ c.line → cursor.next = (.fault, cursor)) := by
  obtain ⟨number, extension, hline, hnumber, hplain⟩ := exists_front_of_strtol (by decide) hc.digits
  let r : ReadChunk := ⟨number, extension, charLf, c.data, c.skipped⟩
  have hsame : r.line = c.line := hline.symm
  have hbytes : (Stepped.chunk c).bytes = r.bytes := by
    rw [ReadChunk.bytes, hsame]
    simp [Stepped.bytes, crlf, r]
  have hextension : charCr ∉ extension := by
    intro hmem
    apply hc.line
    rw [hline]
    exact List.mem_append_right _ hmem
  have hvalue : strtol 16 (r.bytes ++ tail) = ((c.data.length : Int), number.length) := by
    have hcut : r.bytes ++ tail = c.line ++ charCr :: (charLf :: (c.data ++ c.skipped ++ tail)) := by
      rw [ReadChunk.bytes_append, hline]
      simp [r]
    rw [hcut, strtol_append _ (by decide) hc.digits]
    exact Prod.ext hc.size hnumber.symm
  have hmem : charNul ∈ c.line ↔ charNul ∈ extension := by
    rw [hline, List.mem_append]
    exact or_iff_right hplain
  rw [hbytes] at h ⊢
  constructor
  · intro hfree
    rw [← hsame]
    exact h.next_of_whole ⟨hvalue, hc.nonempty, ⟨hextension, mt hmem.mpr hfree⟩, hc.skipped⟩
  · intro hhidden
    have hsize : (strtol 16 (r.bytes ++ tail)).1 ≠ 0 := by
      rw [hvalue]
      exact Int.natCast_ne_zero.mpr (List.length_pos_iff.mpr hc.nonempty).ne'
    apply h.next_of_hidden (by simp [ReadChunk.bytes]) (sizeOfInt_strtol_ne_zero hsize)
    rw [hvalue, ReadChunk.bytes_append, List.drop_left, strchr_append _ hextension,
      if_pos (hmem.mp hhidden)]

theorem StandsAt.pass {passed tail : Bytes} (h : StandsAt cursor before (passed ++ tail)) :
    StandsAt { cursor with pos := (before ++ passed).length } (before ++ passed) tail where
  memory := by rw [List.append_assoc]; exact h.memory
  pos := rfl
  chunked := h.chunked
  running := h.running
  size := by rw [List.append_assoc]; exact h.size

end Next

def Stepped.chunk? : Stepped → Option SteppedChunk
  | .chunk c => some c
  | _ => none

def chunksOf (steps : List Stepped) : List SteppedChunk := steps.filterMap Stepped.chunk?

/-- The cursor of a parsed message returns the chunks in order, each with the range that the parser
has stepped over, and decodes the message to their data. -/
structure CursorAgrees (chunks : List SteppedChunk) (p : HttpParser) : Prop where
  ranges : ∀ calls, chunks.length < calls →
    ∃ found, (HttpChunkCursor.init p).ranges calls = some found ∧
      found.map (fun range => (p.headerOffset + range.1, range.2))
        = chunks.map (fun c => (c.start, c.data.length)) ∧
      ∀ range ∈ found, range.1 + range.2 ≤ p.msgsize - p.headerOffset
  decode : decodeChunkedBody p = some (chunks.flatMap SteppedChunk.data)

section Follow

variable {header j : Nat}

/-- What the cursor returns from a place on the path of the parser on. -/
structure Follows (header : Nat) (steps : List Stepped) (cursor : HttpChunkCursor) (before : Bytes) :
    Prop where
  ranges : ∀ calls, (chunksOf steps).length < calls →
    ∃ found, cursor.ranges calls = some found ∧
      found.map (fun range => (header + range.1, range.2))
        = (chunksOf steps).map (fun c => (c.start, c.data.length)) ∧
      ∀ range ∈ found, range.1 + range.2 ≤ (before ++ spelled steps).length
  decode : ∀ calls result, (chunksOf steps).length < calls →
    decodeLoop calls cursor result = some (result ++ (chunksOf steps).flatMap SteppedChunk.data)

theorem ranges_succ {cursor next : HttpChunkCursor} {start size calls : Nat}
    (h : cursor.next = (.chunk start size, next)) :
    cursor.ranges (calls + 1) = (next.ranges calls).map ((start, size) :: ·) := by
  simp only [HttpChunkCursor.ranges, h]

theorem decodeLoop_succ {cursor next : HttpChunkCursor} {start size calls : Nat} (result : Bytes)
    (h : cursor.next = (.chunk start size, next)) :
    decodeLoop (calls + 1) cursor result
      = decodeLoop calls next (result ++ ((cursor.body.getD []).drop start).take size) := by
  simp only [decodeLoop, h]

theorem chunksOf_trailers : ∀ {steps : List Stepped} {i : Nat},
    Path .trailerPart i steps .chunkComplete j → chunksOf steps = [] := by
  intro steps
  induction steps with
  | nil => intros; rfl
  | cons x steps ih =>
      rintro i ⟨u, hover, hpath⟩
      cases hover with
      | trailer hline hne => exact ih hpath
      | finish =>
          cases steps with
          | nil => rfl
          | cons y steps =>
              obtain ⟨v, hover, -⟩ := hpath
              cases hover

theorem follows_of_done {steps : List Stepped} {cursor next : HttpChunkCursor} {before : Bytes}
    (hnone : chunksOf steps = []) (h : cursor.next = (.done, next)) :
    Follows header steps cursor before := by
  constructor
  · intro calls hcalls
    obtain ⟨calls, rfl⟩ : ∃ k, calls = k + 1 := ⟨calls - 1, by omega⟩
    exact ⟨[], by simp [HttpChunkCursor.ranges, h], by simp [hnone], by simp⟩
  · intro calls result hcalls
    obtain ⟨calls, rfl⟩ : ∃ k, calls = k + 1 := ⟨calls - 1, by omega⟩
    simp [decodeLoop, h, hnone]

theorem follows_of_path : ∀ {steps : List Stepped} {i : Nat} {cursor : HttpChunkCursor}
    {before : Bytes}, Path .chunkData i steps .chunkComplete j →
    StandsAt cursor before (spelled steps ++ [charNul]) → i = header + before.length →
    (∀ c ∈ chunksOf steps, charNul ∉ c.line) → Follows header steps cursor before := by
  intro steps
  induction steps with
  | nil =>
      rintro i cursor before ⟨hstate, -⟩
      cases hstate
  | cons x steps ih =>
      rintro i cursor before ⟨u, hover, hpath⟩ hat hi hfree
      rw [spelled_cons, List.append_assoc] at hat
      cases hover with
      | last hline hdigits hzero =>
          rename_i line
          have hnone : chunksOf (.last line :: steps) = [] := by
            rw [chunksOf, List.filterMap_cons_none rfl]
            exact chunksOf_trailers hpath
          have hline' : StandsAt cursor before
              (line ++ charCr :: (charLf :: (spelled steps ++ [charNul]))) := by
            simpa [Stepped.bytes, crlf] using hat
          exact follows_of_done hnone (next_of_last hline' hdigits hzero)
      | chunk haccepted hstart =>
          rename_i c
          have hchunks : chunksOf (.chunk c :: steps) = c :: chunksOf steps := rfl
          rw [hchunks, List.forall_mem_cons] at hfree
          have hnext := (next_of_chunk haccepted hat).1 hfree.1
          have hfollows := ih hpath hat.pass (by
            rw [hi, List.length_append, Nat.add_assoc]) hfree.2
          have hdata : (before ++ ((Stepped.chunk c).bytes ++ (spelled steps ++ [charNul]))).drop
              (before.length + (c.line.length + 2)) = c.data ++ (c.skipped ++ (spelled steps ++
                [charNul])) := by
            rw [← List.drop_drop, List.drop_left]
            simp only [Stepped.bytes, List.append_assoc]
            rw [← List.append_assoc c.line]
            exact List.drop_left' (by simp [crlf])
          constructor
          · intro calls hcalls
            rw [hchunks, List.length_cons] at hcalls
            obtain ⟨calls, rfl⟩ : ∃ k, calls = k + 1 := ⟨calls - 1, by omega⟩
            obtain ⟨found, hfound, hranges, hinside⟩ := hfollows.ranges calls (by omega)
            refine ⟨_ :: found, by rw [ranges_succ hnext, hfound]; rfl, ?_, ?_⟩
            · rw [hchunks, List.map_cons, List.map_cons, hranges, hstart, hi, Nat.add_assoc]
            · rw [List.append_assoc, ← spelled_cons] at hinside
              refine List.forall_mem_cons.mpr ⟨?_, hinside⟩
              simp only [spelled_cons, Stepped.bytes, crlf, List.length_append, List.length_cons,
                List.length_nil]
              omega
          · intro calls result hcalls
            rw [hchunks, List.length_cons] at hcalls
            obtain ⟨calls, rfl⟩ : ∃ k, calls = k + 1 := ⟨calls - 1, by omega⟩
            rw [decodeLoop_succ result hnext, hfollows.decode calls _ (by omega), hat.memory,
              Option.getD_some, hdata, List.take_left, hchunks, List.flatMap_cons,
              List.append_assoc]

/-- A NUL in the size line of a chunk stops the cursor there. -/
theorem ranges_of_nul : ∀ {steps : List Stepped} {i : Nat} {cursor : HttpChunkCursor}
    {before : Bytes}, Path .chunkData i steps .chunkComplete j →
    StandsAt cursor before (spelled steps ++ [charNul]) →
    (∃ c ∈ chunksOf steps, charNul ∈ c.line) → ∀ calls, cursor.ranges calls = none := by
  intro steps
  induction steps with
  | nil =>
      rintro i cursor before ⟨hstate, -⟩
      cases hstate
  | cons x steps ih =>
      rintro i cursor before ⟨u, hover, hpath⟩ hat ⟨c, hmem, hnul⟩ calls
      rw [spelled_cons, List.append_assoc] at hat
      cases calls with
      | zero => rfl
      | succ calls =>
          cases hover with
          | last hline hdigits hzero =>
              rw [chunksOf, List.filterMap_cons_none rfl] at hmem
              rw [show steps.filterMap Stepped.chunk? = [] from chunksOf_trailers hpath] at hmem
              simp at hmem
          | chunk haccepted hstart =>
              rename_i first
              have hnext := next_of_chunk haccepted hat
              by_cases hfirst : charNul ∈ first.line
              · simp [HttpChunkCursor.ranges, hnext.2 hfirst]
              · have hlater : ∃ c ∈ chunksOf steps, charNul ∈ c.line := by
                  rcases List.mem_cons.mp hmem with rfl | hlater
                  · exact absurd hnul hfirst
                  · exact ⟨c, hlater, hnul⟩
                rw [ranges_succ (hnext.1 hfirst), ih hpath hat.pass hlater, Option.map_none]

end Follow

theorem length_chunksOf_le (steps : List Stepped) :
    (chunksOf steps).length ≤ (spelled steps).length := by
  induction steps with
  | nil => exact le_rfl
  | cons x steps ih =>
      rw [spelled_cons, List.length_append]
      have hpositive : 2 ≤ x.bytes.length := by
        cases x <;> simp only [Stepped.bytes, crlf, List.length_append, List.length_cons,
          List.length_nil] <;> omega
      have hchunks : (chunksOf (x :: steps)).length ≤ (chunksOf steps).length + 1 := by
        cases x with
        | chunk c => exact le_rfl
        | last line => exact Nat.le_succ _
        | trailer line => exact Nat.le_succ _
      omega

section Message

variable {zeroBody : Bool} {stream : Bytes} {consumed : Nat} {steps : List Stepped} {p : HttpParser}

theorem Finished.getParsedBody_eq (h : Finished zeroBody stream consumed steps p) :
    getParsedBody p = some (spelled steps ++ [charNul], (spelled steps).length) := by
  have hsize := h.size
  have hlength : sizeSub p.msgsize p.headerOffset = (spelled steps).length := by
    rw [sizeSub_of_le h.header (by unfold sizeModulus; omega), ← h.body, List.length_drop]
    rfl
  rw [getParsedBody, httpParserGetBody, h.complete, h.state, hlength, h.body]
  rfl

theorem Finished.standsAt (h : Finished zeroBody stream consumed steps p)
    (hchunked : p.chunked = true) :
    StandsAt (HttpChunkCursor.init p) [] (spelled steps ++ [charNul]) := by
  have hinit : HttpChunkCursor.init p
      = { body := some (spelled steps ++ [charNul]), bodyLen := (spelled steps).length
          pos := 0, chunked := p.chunked, ended := false } := by
    rw [HttpChunkCursor.init, h.getParsedBody_eq]
  rw [hinit]
  refine ⟨rfl, rfl, hchunked, rfl, ?_⟩
  have hsize := h.size
  rw [List.nil_append, List.length_append, ← h.body, List.length_drop, List.length_singleton]
  change p.msgsize - _ + 1 < _
  unfold sizeModulus
  omega

theorem Finished.follows (h : Finished zeroBody stream consumed steps p) (hchunked : p.chunked = true)
    (hfree : ∀ c ∈ chunksOf steps, charNul ∉ c.line) :
    Follows p.headerOffset steps (HttpChunkCursor.init p) [] := by
  have hat := h.standsAt hchunked
  cases hbody : p.bodiless zeroBody with
  | false => exact follows_of_path (h.path hbody) hat rfl hfree
  | true =>
      -- the cursor finds the NUL behind the empty body
      obtain rfl := h.bodiless hbody
      have hdone : (HttpChunkCursor.init p).next
          = (.done, { HttpChunkCursor.init p with ended := true }) := by
        apply hat.next_of_zero (by simp)
        rw [spelled_nil]
        decide
      exact follows_of_done rfl hdone

theorem Finished.cursorAgrees_iff (h : Finished zeroBody stream consumed steps p)
    (hchunked : p.chunked = true) :
    CursorAgrees (chunksOf steps) p ↔ ∀ c ∈ chunksOf steps, charNul ∉ c.line := by
  constructor
  · intro hagrees c hc hnul
    obtain ⟨found, hfound, -⟩ := hagrees.ranges _ (Nat.lt_succ_self _)
    cases hbody : p.bodiless zeroBody with
    | true =>
        rw [h.bodiless hbody] at hc
        simp [chunksOf] at hc
    | false =>
        rw [ranges_of_nul (h.path hbody) (h.standsAt hchunked) ⟨c, hc, hnul⟩] at hfound
        simp at hfound
  · intro hfree
    have hfollows := h.follows hchunked hfree
    constructor
    · intro calls hcalls
      obtain ⟨found, hfound, hranges, hinside⟩ := hfollows.ranges calls hcalls
      refine ⟨found, hfound, hranges, ?_⟩
      rw [List.nil_append, ← h.body, List.length_drop] at hinside
      exact hinside
    · rw [decodeChunkedBody, h.getParsedBody_eq]
      exact hfollows.decode _ [] (Nat.lt_succ_of_le (length_chunksOf_le steps))

end Message

theorem cursorAgrees_iff_no_nul (isResp zeroBody : Bool) (memory : HttpParser)
    (fragments : List Bytes) (hsize : fragments.flatten.length < 2 ^ 63)
    (hdone : (feed fragments (freshParser isResp zeroBody memory)).code = 1)
    (hchunked : (feed fragments (freshParser isResp zeroBody memory)).parser.chunked = true) :
    let chunks := chunksOf (feedSteps fragments (freshParser isResp zeroBody memory))
    CursorAgrees chunks (feed fragments (freshParser isResp zeroBody memory)).parser ↔
      ∀ c ∈ chunks, charNul ∉ c.line :=
  (finished_freshParser isResp zeroBody memory fragments hsize hdone hchunked).cursorAgrees_iff
    hchunked

/-- A chunk with an extension, one with a sign and a blank, and a NUL behind the last size. -/
def signedFragments : List Bytes :=
  [bytesOf "POST / HTTP/1.1\r\nTransfer-Encoding: chunked\r\n\r\n3;a=b\r\nx",
   bytesOf "yz\r", bytesOf "\n +0x1\r\nw\r\n0" ++ [charNul] ++ bytesOf "\r\n\r\n"]

theorem cursorAgrees_signedFragments :
    decodeChunkedBody (feed signedFragments (freshParser false false zeroedParser)).parser
      = some (bytesOf "xyzw") := by
  have hagrees := (cursorAgrees_iff_no_nul false false zeroedParser signedFragments
    (by decide +kernel) (by decide +kernel) (by decide +kernel)).mpr (by decide +kernel)
  rw [hagrees.decode]
  decide +kernel

def nulFragments : List Bytes :=
  [bytesOf "POST / HTTP/1.1\r\nTransfer-Encoding: chunked\r\n\r\n5;" ++ [charNul] ++
    bytesOf "\r\nhello\r\n0\r\n\r\n"]

theorem not_cursorAgrees_nulFragments :
    (feed nulFragments (freshParser false false zeroedParser)).code = 1 ∧
    (feed nulFragments (freshParser false false zeroedParser)).parser.chunked = true ∧
    (HttpChunkCursor.init (feed nulFragments (freshParser false false zeroedParser)).parser).next.1
      = .fault ∧
    ¬ CursorAgrees (chunksOf (feedSteps nulFragments (freshParser false false zeroedParser)))
      (feed nulFragments (freshParser false false zeroedParser)).parser := by
  refine ⟨by decide +kernel, by decide +kernel, by decide +kernel, ?_⟩
  intro hagrees
  have hfault : decodeChunkedBody (feed nulFragments (freshParser false false zeroedParser)).parser
      = none := by
    decide +kernel
  have hdecode := hagrees.decode
  rw [hfault] at hdecode
  simp at hdecode

end WorkflowModel.Http
