import WorkflowModel.Http.HeaderStore
import WorkflowModel.Proof.HttpEncode
import WorkflowModel.Proof.HttpRoundTrip

/-!
# The store of header lines

A line keeps room for its text, whatever values were written to it. So no write leaves the bytes of the
line, the lines are those of the parser with every byte written, and the list of them is the list of names
and values that the calls describe, up to the case of the names.
-/

namespace WorkflowModel.Http

open WorkflowModel

/-- What the memory holds of a line of which every byte is written. -/
def HeaderLine.stored (line : HeaderLine) : StoredLine :=
  { nameLen := line.nameLen, valueLen := line.valueLen, buf := line.buf.map some }

theorem writeName_alloc (name : Bytes) (size : Nat) (hsize : name.length + 2 ≤ size) :
    ∃ buf, writeName name (Block.alloc size) = some buf ∧ buf.Holds (name ++ [charColon, charSpace])
      ∧ buf.length = size := by
  obtain ⟨first, hfirst, hholds, hlength, -⟩ :=
    (Block.holds_nil (Block.alloc size : Block UInt8)).write name (by simp; omega)
  obtain ⟨second, hsecond, hholds, hlength', -⟩ := hholds.write [charColon] (by simp at *; omega)
  obtain ⟨third, hthird, hholds, hlength'', -⟩ := hholds.write [charSpace] (by simp at *; omega)
  refine ⟨third, ?_, by simpa using hholds, by simp at *; omega⟩
  simp only [List.nil_append, List.length_nil, List.length_append, List.length_singleton] at hfirst hsecond hthird
  simp only [writeName, hfirst, hsecond, hthird, Option.bind_eq_bind, Option.bind_some]

/-- A value and the line end behind a name, in a block that has room for them. -/
theorem writeValue_spec {front : Bytes} {nameLen : Nat} (value : Bytes) {buf : Block UInt8}
    (hfront : buf.Holds front) (hlength : front.length = nameLen + 2)
    (hroom : front.length + value.length + 2 ≤ buf.length) :
    writeValue nameLen value buf
      = some ((front ++ value ++ crlf).map some ++ buf.drop (front.length + value.length + 2)) := by
  obtain ⟨first, hfirst, hholds, hsize, hbehind⟩ := hfront.write value (by omega)
  obtain ⟨second, hsecond, hholds, hsize', hbehind'⟩ := hholds.write [charCr] (by simp; omega)
  obtain ⟨third, hthird, hholds, hsize'', hbehind''⟩ := hholds.write [charLf] (by simp; omega)
  simp only [List.length_append, List.length_singleton, hlength] at hfirst hsecond hthird hbehind hbehind' hbehind''
  have hrun : writeValue nameLen value buf = some third := by
    simp only [writeValue, hfirst, hsecond, hthird, Option.bind_eq_bind, Option.bind_some]
  have htext : front ++ value ++ [charCr] ++ [charLf] = front ++ value ++ crlf := by
    simp [crlf]
  rw [htext] at hholds
  have hend : (front ++ value ++ crlf).length = nameLen + 2 + value.length + 2 := by
    simp only [List.length_append, hlength, crlf, List.length_cons, List.length_nil]
  have hcut : third.take (nameLen + 2 + value.length + 2) = (front ++ value ++ crlf).map some := by
    rw [← hend]
    exact hholds
  have hrest : third.drop (nameLen + 2 + value.length + 2) = buf.drop (nameLen + 2 + value.length + 2) := by
    rw [hbehind'' _ (by omega), hbehind' _ (by omega), hbehind _ (by omega)]
  rw [hrun, hlength, ← hcut, ← hrest, List.take_append_drop]

/-- The line that `http_parser_add_header` makes. -/
def newLine (name value : Bytes) : HeaderLine :=
  { nameLen := intOfLong name.length, valueLen := intOfLong value.length,
    buf := name ++ [charColon, charSpace] ++ value ++ crlf }

theorem writeLine (name value : Bytes) :
    (writeName name (Block.alloc (name.length + value.length + 4))).bind (writeValue name.length value)
      = some ((newLine name value).buf.map some) := by
  obtain ⟨buf, hname, hholds, hlength⟩ :=
    writeName_alloc name (name.length + value.length + 4) (by omega)
  have hvalue := writeValue_spec value hholds (List.length_append ..)
    (by simp only [List.length_append, List.length_cons, List.length_nil]; omega)
  have hrest : buf.drop ((name ++ [charColon, charSpace]).length + value.length + 2) = [] := by
    rw [List.drop_eq_nil_iff]
    simp only [List.length_append, List.length_cons, List.length_nil]
    omega
  rw [hname, Option.bind_some, hvalue, hrest, List.append_nil]
  rfl

theorem storeAddHeader_eq (name value : Bytes) (lines : List StoredLine) :
    storeAddHeader name value lines = some (lines ++ [(newLine name value).stored]) := by
  have hline := writeLine name value
  obtain ⟨buf, hname, hvalue⟩ := Option.bind_eq_some_iff.1 hline
  unfold storeAddHeader
  rw [hname, Option.bind_eq_bind, Option.bind_some, hvalue, Option.bind_some]
  simp only [HeaderLine.stored, newLine]

/-- The line spells the entry, perhaps in another case of the name, and nothing in the name ends a string. -/
structure HeaderLine.Keeps (line : HeaderLine) (entry : Bytes × Bytes) : Prop where
  spells : line.Spells (line.name, entry.2)
  name : strcaseEq line.name entry.1 = true
  plain : charNul ∉ line.name
  short : line.name.length < 2 ^ 31 ∧ entry.2.length < 2 ^ 31

theorem length_eq_of_strcaseEq {s t : Bytes} (h : strcaseEq s t = true) : s.length = t.length := by
  have hmap : s.map toLower = t.map toLower := by simpa [strcaseEq] using h
  simpa using congrArg List.length hmap

theorem strcaseEq_congr {s t u : Bytes} (h : strcaseEq s t = true) : strcaseEq s u = strcaseEq t u := by
  have hmap : s.map toLower = t.map toLower := by simpa [strcaseEq] using h
  rw [strcaseEq, strcaseEq, hmap]

theorem sizeOfInt_of_lt {n : Nat} (h : n < 2 ^ 31) : sizeOfInt (n : Int) = n := by
  unfold sizeOfInt sizeModulus
  omega

section Lines

variable {line : HeaderLine} {entry : Bytes × Bytes} {name value : Bytes}

theorem HeaderLine.Keeps.isNamed (h : line.Keeps entry) (name : Bytes) : line.isNamed name = strcaseEq entry.1 name := by
  have hsame := strcaseEq_congr h.name (u := name)
  rw [HeaderLine.isNamed, hsame, h.spells.nameLen, Bool.and_eq_right_iff_imp]
  intro hnamed
  rw [← hsame] at hnamed
  rw [length_eq_of_strcaseEq hnamed, beq_self_eq_true]

theorem HeaderLine.Keeps.isNamed_stored (h : line.Keeps entry) (hname : charNul ∉ name) :
    line.stored.isNamed name = some (strcaseEq entry.1 name) := by
  obtain ⟨behind, hbuf⟩ := h.spells.buf
  have hlength : sizeOfInt line.stored.nameLen = line.name.length := by
    change sizeOfInt line.nameLen = _
    rw [h.spells.nameLen]
    exact sizeOfInt_of_lt h.short.1
  rw [StoredLine.isNamed, hlength, ← strcaseEq_congr h.name]
  split_ifs with hsame
  · have hread : line.stored.buf.read 0 name.length = some line.name := by
      rw [← hsame]
      change Block.read 0 line.name.length (line.buf.map some) = some line.name
      have htext : line.buf = [] ++ line.name ++ ([charColon, charSpace] ++ entry.2 ++ crlf ++ behind) := by
        rw [hbuf, headerText]
        simp only [List.nil_append, List.append_assoc]
      rw [htext]
      exact Block.read_map [] line.name _
    have hcase : strncaseEq line.name name = strcaseEq line.name name := by
      unfold strncaseEq
      rw [cString_of_not_mem h.plain, cString_of_not_mem hname]
    rw [hread, Option.bind_eq_bind, Option.bind_some, hcase]
  · rw [eq_comm, Option.some.injEq, Bool.eq_false_iff]
    intro hnamed
    exact hsame (length_eq_of_strcaseEq hnamed)

theorem HeaderLine.Keeps.room (h : line.Keeps entry) :
    line.name.length + 2 + entry.2.length + 2 ≤ line.buf.length := by
  obtain ⟨behind, hbuf⟩ := h.spells.buf
  have hlength := congrArg List.length hbuf
  rw [List.length_append, length_headerText] at hlength
  dsimp only at hlength
  omega

/-- Writing a value stays within the line, as it does for a line that is a list of bytes. -/
theorem HeaderLine.Keeps.setValue_stored (h : line.Keeps entry) (hnamed : line.isNamed name = true) :
    line.stored.setValue name value = some (line.setValue name value).stored := by
  have hlength : line.name.length = name.length := by
    rw [h.isNamed name, ← strcaseEq_congr h.name] at hnamed
    exact length_eq_of_strcaseEq hnamed
  have hroom := h.room
  have hrecorded : sizeOfInt line.stored.valueLen = entry.2.length := by
    change sizeOfInt line.valueLen = _
    rw [h.spells.valueLen]
    exact sizeOfInt_of_lt h.short.2
  have hlonger : sizeOfInt line.valueLen < value.length ↔ entry.2.length < value.length := by
    rw [show sizeOfInt line.valueLen = entry.2.length from hrecorded]
  rw [StoredLine.setValue, hrecorded]
  by_cases hgrows : entry.2.length < value.length
  · have hline := writeLine name value
    obtain ⟨buf, hname, hvalue⟩ := Option.bind_eq_some_iff.1 hline
    have hset : (line.setValue name value).stored
        = { line.stored with valueLen := intOfLong value.length, buf := (newLine name value).buf.map some } := by
      simp only [HeaderLine.setValue, HeaderLine.stored, if_pos (hlonger.2 hgrows), List.append_nil, newLine]
    rw [if_pos hgrows, hname, Option.bind_eq_bind, Option.bind_some]
    beta_reduce
    rw [hvalue, Option.bind_some, hset]
  · have hfront : Block.Holds (line.buf.map some) (line.buf.take (name.length + 2)) := by
      have hholds := Block.holds_map (line.buf.take (name.length + 2)) (line.buf.drop (name.length + 2))
      rwa [List.take_append_drop] at hholds
    have htake : (line.buf.take (name.length + 2)).length = name.length + 2 :=
      List.length_take_of_le (by omega)
    have hvalue := writeValue_spec value hfront htake (by rw [List.length_map, htake]; omega)
    have hbuf : line.stored.buf = line.buf.map some := rfl
    simp only [if_neg hgrows, hbuf, hvalue, Option.bind_eq_bind, Option.bind_some]
    simp only [HeaderLine.setValue, HeaderLine.stored, if_neg (fun hlt => hgrows (hlonger.1 hlt)), htake,
      List.map_append, List.map_drop]

/-- The strings that a call is given have no NUL, and their lengths are `int`s. -/
def HeaderCall.Plain : HeaderCall → Prop
  | .add name value | .set name value =>
      charNul ∉ name ∧ charNul ∉ value ∧ name.length < 2 ^ 31 ∧ value.length < 2 ^ 31

theorem not_mem_nul_of_strcaseEq {s t : Bytes} (h : strcaseEq s t = true) (ht : charNul ∉ t) :
    charNul ∉ s := by
  have hzero : ∀ c : UInt8, toLower c = charNul → c = charNul := by
    intro c hc
    unfold toLower at hc
    unfold charNul at hc ⊢
    grind
  have hmap : s.map toLower = t.map toLower := by simpa [strcaseEq] using h
  intro hs
  have hlower : charNul ∈ t.map toLower := by
    rw [← hmap]
    exact List.mem_map_of_mem (f := toLower) hs
  obtain ⟨c, hc, hlow⟩ := List.mem_map.1 hlower
  rw [hzero c hlow] at hc
  exact ht hc

theorem strcaseEq_comm (s t : Bytes) : strcaseEq s t = strcaseEq t s := by
  rw [strcaseEq, strcaseEq, Bool.beq_comm]

theorem newLine_spells (hname : name.length < 2 ^ 31) (hvalue : value.length < 2 ^ 31) :
    (newLine name value).Spells (name, value) := by
  have hnameLen := intOfLong_of_lt hname
  have hvalueLen := intOfLong_of_lt hvalue
  refine ⟨?_, ?_, [], ?_⟩
  · rw [newLine, hnameLen]
  · rw [newLine, hvalueLen]
  · simp only [newLine, headerText, List.append_nil]

theorem keeps_newLine (hname : charNul ∉ name) (hshort : name.length < 2 ^ 31)
    (hvalue : value.length < 2 ^ 31) : (newLine name value).Keeps (name, value) := by
  have hspells := newLine_spells hshort hvalue
  have hsame := hspells.name_eq
  refine ⟨?_, ?_, ?_, ?_, hvalue⟩
  · rw [hsame]
    exact hspells
  · rw [hsame]
    exact beq_self_eq_true _
  · rw [hsame]
    exact hname
  · rw [hsame]
    exact hshort

theorem HeaderLine.Keeps.setValue (h : line.Keeps entry) (hnamed : line.isNamed name = true)
    (hname : charNul ∉ name) (hvalue : value.length < 2 ^ 31) :
    (line.setValue name value).Keeps (entry.1, value) := by
  obtain ⟨spelled, hspells, hcase⟩ := h.spells.setValue hnamed hvalue
  have hsame := hspells.name_eq
  have hentry : strcaseEq entry.1 name = true := by rw [← h.isNamed, hnamed]
  have hlength : spelled.length = line.name.length := by
    rw [length_eq_of_strcaseEq hcase, ← length_eq_of_strcaseEq hentry, length_eq_of_strcaseEq h.name]
  refine ⟨?_, ?_, ?_, ?_, hvalue⟩
  · rw [hsame]
    exact hspells
  · rw [hsame, strcaseEq_congr hcase, strcaseEq_comm]
    exact hentry
  · rw [hsame]
    exact not_mem_nul_of_strcaseEq hcase hname
  · rw [hsame, hlength]
    exact h.short.1

end Lines

section Calls

variable {lines : List HeaderLine} {entries : List (Bytes × Bytes)} {name value : Bytes}

/-- The lines after `http_parser_set_header`. -/
def linesAfterSet (name value : Bytes) (lines : List HeaderLine) : List HeaderLine :=
  (setInLines name value lines).getD (lines ++ [newLine name value])

theorem linesAfterSet_cons (line : HeaderLine) (rest : List HeaderLine) :
    linesAfterSet name value (line :: rest)
      = if line.isNamed name then line.setValue name value :: rest
        else line :: linesAfterSet name value rest := by
  unfold linesAfterSet
  rw [setInLines]
  split_ifs
  · rfl
  · cases setInLines name value rest <;> rfl

theorem headerList_callHeader (p : HttpParser) (call : HeaderCall) :
    (callHeader p call).headerList = match call with
      | .add name value => p.headerList ++ [newLine name value]
      | .set name value => linesAfterSet name value p.headerList := by
  cases call with
  | add name value => rfl
  | set name value =>
      change (httpParserSetHeader name value p).headerList = linesAfterSet name value p.headerList
      unfold httpParserSetHeader linesAfterSet
      cases setInLines name value p.headerList with
      | none => rfl
      | some lines => rfl

/-- `http_parser_set_header` in memory: it stays within the lines, it leaves the lines of the parser, and
these keep the entries as the list of headers does. -/
theorem storeSetHeader_spec (h : List.Forall₂ HeaderLine.Keeps lines entries)
    (hcall : (HeaderCall.set name value).Plain) :
    storeSetHeader name value (lines.map HeaderLine.stored)
        = some ((linesAfterSet name value lines).map HeaderLine.stored)
      ∧ List.Forall₂ HeaderLine.Keeps (linesAfterSet name value lines) (setEntry name value entries) := by
  obtain ⟨hname, -, hshort, hvalue⟩ := hcall
  induction h with
  | nil =>
      refine ⟨storeAddHeader_eq name value [], ?_⟩
      exact .cons (keeps_newLine hname hshort hvalue) .nil
  | @cons line entry rest entries hline hrest ih =>
      have hread := hline.isNamed_stored hname
      have hnamed := hline.isNamed name
      rw [linesAfterSet_cons, List.map_cons, storeSetHeader, hread, Option.bind_eq_bind, Option.bind_some,
        setEntry]
      by_cases hsame : strcaseEq entry.1 name = true
      · rw [hsame] at hnamed
        rw [if_pos hsame, if_pos hnamed, hsame, if_pos rfl, hline.setValue_stored hnamed]
        exact ⟨rfl, .cons (hline.setValue hnamed hname hvalue) hrest⟩
      · rw [Bool.not_eq_true] at hsame
        rw [hsame] at hnamed
        rw [if_neg (by simp [hsame]), if_neg (by simp [hnamed]), hsame, if_neg (by simp), ih.1]
        exact ⟨rfl, .cons hline ih.2⟩

theorem storeCall_spec {p : HttpParser} (h : List.Forall₂ HeaderLine.Keeps p.headerList entries)
    {call : HeaderCall} (hcall : call.Plain) :
    storeCall (p.headerList.map HeaderLine.stored) call
        = some ((callHeader p call).headerList.map HeaderLine.stored)
      ∧ List.Forall₂ HeaderLine.Keeps (callHeader p call).headerList (callEntry entries call) := by
  rw [headerList_callHeader]
  cases call with
  | add name value =>
      obtain ⟨hname, -, hshort, hvalue⟩ := hcall
      refine ⟨?_, ?_⟩
      · rw [storeCall, storeAddHeader_eq, List.map_append]
        rfl
      · exact List.rel_append h (.cons (keeps_newLine hname hshort hvalue) .nil)
  | set name value => exact storeSetHeader_spec h hcall

theorem storeRun_spec {p : HttpParser} (h : List.Forall₂ HeaderLine.Keeps p.headerList entries)
    {calls : List HeaderCall} (hcalls : ∀ call ∈ calls, call.Plain) :
    storeRun (p.headerList.map HeaderLine.stored) calls
        = some ((calls.foldl callHeader p).headerList.map HeaderLine.stored)
      ∧ List.Forall₂ HeaderLine.Keeps (calls.foldl callHeader p).headerList (calls.foldl callEntry entries) := by
  induction calls generalizing p entries with
  | nil => exact ⟨rfl, h⟩
  | cons call rest ih =>
      obtain ⟨hcall, hrest⟩ := List.forall_mem_cons.1 hcalls
      obtain ⟨hstep, hkeeps⟩ := storeCall_spec h hcall
      have hrun := ih hkeeps hrest
      rw [storeRun, hstep]
      exact hrun

theorem storeFind_spec (h : List.Forall₂ HeaderLine.Keeps lines entries) (hname : charNul ∉ name) :
    storeFind name (lines.map HeaderLine.stored)
      = some ((entries.find? fun entry => strcaseEq entry.1 name).map Prod.snd) := by
  induction h with
  | nil => rfl
  | @cons line entry rest entries hline hrest ih =>
      have hread := hline.isNamed_stored hname
      rw [List.map_cons, storeFind, hread, Option.bind_eq_bind, Option.bind_some, List.find?_cons]
      cases hsame : strcaseEq entry.1 name with
      | false => exact ih
      | true =>
          obtain ⟨behind, hbuf⟩ := hline.spells.buf
          have hlength : name.length = line.name.length := by
            rw [← length_eq_of_strcaseEq hsame, length_eq_of_strcaseEq hline.name]
          have hrecorded : sizeOfInt line.stored.valueLen = entry.2.length := by
            change sizeOfInt line.valueLen = _
            rw [hline.spells.valueLen]
            exact sizeOfInt_of_lt hline.short.2
          have htext : line.stored.buf
              = ((line.name ++ [charColon, charSpace]) ++ entry.2 ++ (crlf ++ behind)).map some := by
            change line.buf.map some = _
            rw [hbuf, headerText]
            simp only [List.append_assoc]
          have hvalue : line.stored.buf.read (name.length + 2) entry.2.length = some entry.2 := by
            have hread := Block.read_map (line.name ++ [charColon, charSpace]) entry.2 (crlf ++ behind)
            rw [List.length_append] at hread
            rw [htext, hlength]
            exact hread
          rw [if_pos rfl, hrecorded, hvalue]
          rfl

theorem find?_setEntry (name value : Bytes) (entries : List (Bytes × Bytes)) :
    ((setEntry name value entries).find? fun entry => strcaseEq entry.1 name).map Prod.snd = some value := by
  induction entries with
  | nil => simp [setEntry, strcaseEq]
  | cons entry rest ih =>
      rw [setEntry]
      split_ifs with hsame
      · rw [List.find?_cons, hsame]
        rfl
      · rw [List.find?_cons, Bool.eq_false_of_not_eq_true hsame]
        exact ih

end Calls

/-- The line is as long as the entry says and begins with its text, up to the case of the name. -/
structure StoredLine.Writes (line : StoredLine) (entry : Bytes × Bytes) : Prop where
  nameLen : line.nameLen = entry.1.length
  valueLen : line.valueLen = entry.2.length
  buf : ∃ spelled, strcaseEq spelled entry.1 = true ∧ line.buf.Holds (headerText (spelled, entry.2))

theorem HeaderLine.Keeps.writes {line : HeaderLine} {entry : Bytes × Bytes} (h : line.Keeps entry) :
    line.stored.Writes entry := by
  obtain ⟨behind, hbuf⟩ := h.spells.buf
  refine ⟨?_, h.spells.valueLen, line.name, h.name, ?_⟩
  · rw [← length_eq_of_strcaseEq h.name]
    exact h.spells.nameLen
  · change Block.Holds (line.buf.map some) _
    rw [hbuf]
    exact Block.holds_map _ _

/-- Any calls stay within the bytes of their lines and leave the headers that the list of entries has. A
header that is then set is found with its value. -/
theorem storeRun_lines {calls : List HeaderCall} (hcalls : ∀ call ∈ calls, call.Plain) :
    ∃ lines, storeRun [] calls = some lines
      ∧ List.Forall₂ StoredLine.Writes lines (calls.foldl callEntry [])
      ∧ ∀ name value, (HeaderCall.set name value).Plain →
          ∃ lines', storeSetHeader name value lines = some lines' ∧ storeFind name lines' = some (some value) := by
  obtain ⟨hrun, hkeeps⟩ := storeRun_spec (p := zeroedParser) List.Forall₂.nil hcalls
  refine ⟨_, hrun, ?_, ?_⟩
  · rw [List.forall₂_map_left_iff]
    exact hkeeps.imp fun _ _ h => h.writes
  · intro name value hcall
    obtain ⟨hset, hkeeps'⟩ := storeSetHeader_spec hkeeps hcall
    refine ⟨_, hset, ?_⟩
    rw [storeFind_spec hkeeps' hcall.1, find?_setEntry]

instance : DecidablePred HeaderCall.Plain := fun call =>
  match call with
  | .add name value | .set name value => inferInstanceAs (Decidable
      (charNul ∉ name ∧ charNul ∉ value ∧ name.length < 2 ^ 31 ∧ value.length < 2 ^ 31))

/-- A value that is made shorter and then longer than the room that it had. -/
def shrunkThenGrown : List HeaderCall :=
  [.add (bytesOf "Ab") (bytesOf "xyz"), .set (bytesOf "aB") (bytesOf "q"), .set (bytesOf "AB") (bytesOf "longer")]

theorem storeRun_lines_shrunkThenGrown :
    shrunkThenGrown.foldl callEntry [] = [(bytesOf "Ab", bytesOf "longer")]
      ∧ ∃ lines, storeRun [] shrunkThenGrown = some lines
        ∧ List.Forall₂ StoredLine.Writes lines (shrunkThenGrown.foldl callEntry [])
        ∧ ∀ name value, (HeaderCall.set name value).Plain →
            ∃ lines', storeSetHeader name value lines = some lines' ∧ storeFind name lines' = some (some value) :=
  ⟨by decide, storeRun_lines (by decide)⟩

end WorkflowModel.Http
