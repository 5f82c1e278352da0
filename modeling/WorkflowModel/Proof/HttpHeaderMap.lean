import WorkflowModel.Http.HeaderMap
import WorkflowModel.Proof.HttpFields
import WorkflowModel.Proof.HttpHeaderStore

/-!
# The cursor and the map of headers

In a message that was parsed, the two ways to look a header up agree: both give the values of the headers
whose names equal the key ignoring case, in their order. The answers of the map depend on the headers alone
but for one query: `key_exists` finds every key that was looked up before with the `get_strict` that returns
a vector.
-/

namespace WorkflowModel.Http

open WorkflowModel Resume

def valuesNamed (key : Bytes) (headers : List (Bytes × Bytes)) : List Bytes :=
  (headers.filter fun header => strcaseEq header.1 key).map Prod.snd

theorem strcaseEq_iff (s t : Bytes) : strcaseEq s t = true ↔ lowerKey s = lowerKey t := beq_iff_eq

/-- The map has the values of a name under its key, and no entry for a name that no header has. -/
theorem headerMap_apply (p : HttpParser) (key : Bytes) :
    headerMap p (lowerKey key)
      = if valuesNamed key (p.headerList.map HeaderLine.pair) = [] then none
        else some (valuesNamed key (p.headerList.map HeaderLine.pair)) := by
  have hvalues : Multimap.valuesOf (lowerKey key)
      (p.headerList.map fun line => (lowerKey line.name, line.value))
      = valuesNamed key (p.headerList.map HeaderLine.pair) := by
    simp only [Multimap.valuesOf, valuesNamed, List.filter_map, List.map_map]
    congr 1
    apply List.filter_congr
    intro line _
    rw [Function.comp_apply, Function.comp_apply, Bool.eq_iff_iff, decide_eq_true_iff, strcaseEq_iff]
    rfl
  rw [headerMap, Multimap.ofList_apply, hvalues]

theorem keeps_addHeader {p : HttpParser} (h : ∀ line ∈ p.headerList, line.Keeps line.pair)
    {name value : Bytes} (hname : charNul ∉ name) (hshort : name.length < 2 ^ 31)
    (hvalue : value.length < 2 ^ 31) :
    ∀ line ∈ (httpParserAddHeader name value p).headerList, line.Keeps line.pair := by
  intro line hline
  obtain hold | hnew := List.mem_append.1 hline
  · exact h line hold
  · obtain rfl : line = newLine name value := List.mem_singleton.1 hnew
    rw [(newLine_spells hshort hvalue).pair_eq]
    exact keeps_newLine hname hshort hvalue

theorem name_plain (p : HttpParser) : charNul ∉ p.name := by
  intro hmem
  simpa using List.mem_takeWhile_imp hmem

theorem name_short (p : HttpParser) : p.name.length < 2 ^ 31 := by
  have hle := (List.takeWhile_prefix (· != charNul) (l := p.namebuf.toList)).length_le
  have hsize : p.namebuf.toList.length = httpHeaderNameMax := p.namebuf.length_toList
  rw [hsize] at hle
  exact lt_of_le_of_lt hle (by decide)

/-- Whatever is fed to a parser, the lines that it stores spell their names and values. -/
theorem keeps_fed (isResp zeroBody : Bool) (memory : HttpParser) (fragments : List Bytes) :
    ∀ line ∈ (feed fragments (freshParser isResp zeroBody memory)).parser.headerList,
      line.Keeps line.pair := by
  rw [(sameHeader_feed isResp zeroBody memory fragments).headerList_eq]
  have hstep : ∀ p l, (∀ line ∈ p.headerList, line.Keeps line.pair) → HeaderLive p →
      ∀ line ∈ (parseHeaderStep p l).2.headerList, line.Keeps line.pair := by
    intro p l hp _
    obtain heq | ⟨value, hvalue, heq⟩ := parseHeaderStep_headerList_cases p l
    · rw [heq]
      exact hp
    · rw [heq]
      exact keeps_addHeader hp (name_plain p) (name_short p) (hvalue.trans (by decide))
  apply Machine.run_preserves headerMachine_resumable hstep
    (freshParser_ready isResp zeroBody memory fragments.flatten)
  rw [(unread_freshParser isResp zeroBody memory).list]
  exact fun _ hnil => absurd hnil List.not_mem_nil

section Cursor

variable {line : HeaderLine} {lines : List HeaderLine} {name : Bytes}

theorem HeaderLine.Keeps.matchesName (h : line.Keeps line.pair) (hname : charNul ∉ name) :
    line.matchesName name = strcaseEq line.name name := by
  rw [HeaderLine.matchesName, h.spells.nameLen, sizeOfInt_of_lt h.short.1]
  by_cases hlength : line.name.length = name.length
  · have htake : line.buf.take name.length = line.name := by
      rw [← hlength, HeaderLine.name, h.spells.nameLen]
      simp
    rw [htake, strncaseEq, cString_of_not_mem h.plain, cString_of_not_mem hname]
    simp [hlength]
  · have hdiff : strcaseEq line.name name = false := by
      rw [Bool.eq_false_iff]
      exact fun hsame => hlength (length_eq_of_strcaseEq hsame)
    simp [hlength, hdiff]

theorem HeaderLine.Keeps.value_eq_take (h : line.Keeps line.pair)
    (hlength : line.name.length = name.length) :
    (line.buf.drop (name.length + 2)).take (sizeOfInt line.valueLen) = line.value := by
  have hvalueLen : sizeOfInt line.valueLen = line.valueLen.toNat := by
    rw [h.spells.valueLen, sizeOfInt_of_lt h.short.2, Int.toNat_natCast]
  have hnameLen : line.nameLen.toNat = name.length := by
    rw [h.spells.nameLen, Int.toNat_natCast, ← hlength]
  rw [HeaderLine.value, hvalueLen, hnameLen]

/-- A call of `find` gives the first value that is left, and leaves the others. -/
theorem cursorFind_spec (h : ∀ line ∈ lines, line.Keeps line.pair) (hname : charNul ∉ name) :
    ∃ rest, cursorFind name lines = ((valuesNamed name (lines.map HeaderLine.pair)).head?, rest)
      ∧ rest <:+ lines
      ∧ valuesNamed name (rest.map HeaderLine.pair)
        = (valuesNamed name (lines.map HeaderLine.pair)).tail := by
  induction lines with
  | nil => exact ⟨[], rfl, List.suffix_rfl, rfl⟩
  | cons line lines ih =>
      obtain ⟨hline, hlines⟩ := List.forall_mem_cons.1 h
      have hmatches := hline.matchesName hname
      cases hsame : strcaseEq line.name name with
      | true =>
          have hvalue := hline.value_eq_take (length_eq_of_strcaseEq hsame)
          refine ⟨lines, ?_, List.suffix_cons line lines, ?_⟩
          · rw [cursorFind, if_pos (hmatches.trans hsame), hvalue]
            simp [valuesNamed, HeaderLine.pair, hsame]
          · simp [valuesNamed, HeaderLine.pair, hsame]
      | false =>
          obtain ⟨rest, hfind, hsuffix, htail⟩ := ih hlines
          have hskip : valuesNamed name ((line :: lines).map HeaderLine.pair)
              = valuesNamed name (lines.map HeaderLine.pair) := by
            simp [valuesNamed, HeaderLine.pair, hsame]
          refine ⟨rest, ?_, hsuffix.trans (List.suffix_cons line lines), ?_⟩
          · rw [cursorFind, if_neg (by simp [hmatches, hsame]), hfind, hskip]
          · rw [hskip, htail]

theorem findAll_eq (h : ∀ line ∈ lines, line.Keeps line.pair) (hname : charNul ∉ name) (calls : Nat) :
    findAll name calls lines = (valuesNamed name (lines.map HeaderLine.pair)).take calls := by
  induction calls generalizing lines with
  | zero => rfl
  | succ calls ih =>
      obtain ⟨rest, hfind, hsuffix, htail⟩ := cursorFind_spec h hname
      rw [findAll, hfind]
      cases hvalues : valuesNamed name (lines.map HeaderLine.pair) with
      | nil => rfl
      | cons value values =>
          rw [hvalues] at htail
          simp only [List.head?_cons, List.take_succ_cons]
          rw [ih fun line hline => h line (hsuffix.subset hline), htail]
          rfl

end Cursor

section Agree

variable {m : HeaderMap} {headers : List (Bytes × Bytes)}

/-- The map has the values of every name, under its key or as the empty list that stands for no entry. -/
def HeaderMap.Holds (m : HeaderMap) (headers : List (Bytes × Bytes)) : Prop :=
  ∀ key, (m (lowerKey key)).getD [] = valuesNamed key headers

theorem headerMap_holds (p : HttpParser) : (headerMap p).Holds (p.headerList.map HeaderLine.pair) := by
  intro key
  rw [headerMap_apply]
  split_ifs with hnone
  · exact hnone.symm
  · rfl

theorem HeaderMap.Holds.getValue (h : m.Holds headers) (key : Bytes) :
    (m.answer (.getValue key)).1 = .value (valuesNamed key headers).head? := by
  rw [← h key, HeaderMap.answer]
  cases m (lowerKey key) with
  | none => rfl
  | some values => cases values <;> rfl

theorem HeaderMap.Holds.getStrict (h : m.Holds headers) (key : Bytes) :
    (m.answer (.getStrict key)).1 = .vector (valuesNamed key headers) := by
  rw [← h key, HeaderMap.answer, Multimap.touch_apply, if_pos rfl]
  rfl

end Agree

/-- A new cursor and a new map give the same value for a key, and the calls of the cursor give the values
that the map has for it, in the order of the message, until they fail. -/
structure LookupsAgree (p : HttpParser) (key : Bytes) : Prop where
  first : ((headerMap p).answer (.getValue key)).1 = .value (cursorFind key p.headerList).1
  all : ∃ values, ((headerMap p).answer (.getStrict key)).1 = .vector values
    ∧ values = valuesNamed key (p.headerList.map HeaderLine.pair)
    ∧ ∀ calls, findAll key calls p.headerList = values.take calls

theorem lookupsAgree_fed (isResp zeroBody : Bool) (memory : HttpParser) (fragments : List Bytes)
    (key : Bytes) (hkey : charNul ∉ key) :
    LookupsAgree (feed fragments (freshParser isResp zeroBody memory)).parser key := by
  have hkeeps := keeps_fed isResp zeroBody memory fragments
  have hholds := headerMap_holds (feed fragments (freshParser isResp zeroBody memory)).parser
  constructor
  · obtain ⟨rest, hfind, -, -⟩ := cursorFind_spec hkeeps hkey
    rw [hholds.getValue, hfind]
  · exact ⟨_, hholds.getStrict key, rfl, findAll_eq hkeeps hkey⟩

/-- One name in three spellings, and another name of the same length between them. -/
def spelledFragments : List Bytes :=
  [bytesOf "HTTP/1.1 200 OK\r\nVary: a\r\nVa", bytesOf "ry-: x\r\nvARY: b\r\nDate: c\r\nVARY:d\r\n\r\n"]

theorem lookupsAgree_spelledFragments :
    findAll (bytesOf "vary") 4
        (feed spelledFragments (freshParser true false zeroedParser)).parser.headerList
      = [bytesOf "a", bytesOf "b", bytesOf "d"]
    ∧ LookupsAgree (feed spelledFragments (freshParser true false zeroedParser)).parser
        (bytesOf "vary") :=
  ⟨by decide +kernel, lookupsAgree_fed true false zeroedParser spelledFragments _ (by decide)⟩

/-- What the headers alone determine as the answer. -/
def HeaderQuery.expected (headers : List (Bytes × Bytes)) : HeaderQuery → HeaderAnswer
  | .keyExists key => .found (headers.any fun header => strcaseEq header.1 key)
  | .get key => .text ((valuesNamed key headers).headD [])
  | .getValue key => .value (valuesNamed key headers).head?
  | .getStrict key => .vector (valuesNamed key headers)
  | .getStrictValues key =>
      .values (if valuesNamed key headers = [] then none else some (valuesNamed key headers))

def HeaderQuery.inserted? : HeaderQuery → Option Bytes
  | .getStrict key => some (lowerKey key)
  | _ => none

/-- The earlier query inserts a key that no header has, and the later one asks whether it is there. -/
def Disturbs (headers : List (Bytes × Bytes)) (earlier later : HeaderQuery) : Prop :=
  ∃ inserted key, earlier = .getStrict inserted ∧ later = .keyExists key
    ∧ strcaseEq inserted key = true ∧ ∀ header ∈ headers, strcaseEq header.1 key = false

def HeaderMap.after (m : HeaderMap) (queries : List HeaderQuery) : HeaderMap :=
  queries.foldl (fun m query => (m.answer query).2) m

section Queries

variable {m : HeaderMap} {headers : List (Bytes × Bytes)} {before : List HeaderQuery}
  {query : HeaderQuery}

theorem HeaderMap.after_concat (m : HeaderMap) (before : List HeaderQuery) (query : HeaderQuery) :
    m.after (before ++ [query]) = ((m.after before).answer query).2 := by
  simp [HeaderMap.after]

theorem HeaderMap.answer_snd (m : HeaderMap) (query : HeaderQuery) :
    (m.answer query).2 = Multimap.touchAll query.inserted?.toList m := by
  cases query with
  | keyExists key => rfl
  | get key => simp only [HeaderMap.answer]; split <;> rfl
  | getValue key => simp only [HeaderMap.answer]; split <;> rfl
  | getStrict key => rfl
  | getStrictValues key => simp only [HeaderMap.answer]; split <;> rfl

theorem HeaderMap.after_eq (m : HeaderMap) (queries : List HeaderQuery) :
    m.after queries = Multimap.touchAll (queries.filterMap HeaderQuery.inserted?) m := by
  induction queries using List.reverseRecOn with
  | nil => rfl
  | append_singleton before query ih =>
      rw [HeaderMap.after_concat, HeaderMap.answer_snd, ih, Multimap.touchAll, Multimap.touchAll,
        Multimap.touchAll, List.filterMap_append, List.foldl_append]
      cases query <;> rfl

theorem HeaderMap.Holds.after (h : m.Holds headers) (before : List HeaderQuery) :
    (m.after before).Holds headers := by
  intro key
  rw [HeaderMap.after_eq, Multimap.touchAll_apply]
  split_ifs
  · exact h key
  · exact h key

theorem mem_inserted_iff (key : Bytes) (before : List HeaderQuery) :
    lowerKey key ∈ before.filterMap HeaderQuery.inserted?
      ↔ ∃ inserted, .getStrict inserted ∈ before ∧ strcaseEq inserted key = true := by
  rw [List.mem_filterMap]
  constructor
  · rintro ⟨query, hmem, hinserted⟩
    cases query with
    | getStrict inserted => exact ⟨inserted, hmem, (strcaseEq_iff _ _).2 (Option.some.inj hinserted)⟩
    | keyExists _ => cases hinserted
    | get _ => cases hinserted
    | getValue _ => cases hinserted
    | getStrictValues _ => cases hinserted
  · rintro ⟨inserted, hmem, hsame⟩
    exact ⟨.getStrict inserted, hmem, congrArg some ((strcaseEq_iff _ _).1 hsame)⟩

theorem valuesNamed_eq_nil_iff (key : Bytes) (headers : List (Bytes × Bytes)) :
    valuesNamed key headers = [] ↔ ∀ header ∈ headers, strcaseEq header.1 key = false := by
  simp [valuesNamed, List.filter_eq_nil_iff]

theorem HeaderMap.Holds.answer_eq (h : m.Holds headers) (hquery : ∀ key, query ≠ .keyExists key) :
    (m.answer query).1 = query.expected headers := by
  cases query with
  | keyExists key => exact absurd rfl (hquery key)
  | get key =>
      rw [HeaderQuery.expected, ← h key, HeaderMap.answer]
      cases m (lowerKey key) with
      | none => rfl
      | some values => cases values <;> rfl
  | getValue key => exact h.getValue key
  | getStrict key => exact h.getStrict key
  | getStrictValues key =>
      rw [HeaderQuery.expected, ← h key, HeaderMap.answer]
      cases m (lowerKey key) with
      | none => rfl
      | some values => cases values <;> rfl

theorem isSome_after (p : HttpParser) (before : List HeaderQuery) (key : Bytes) :
    ((headerMap p).after before (lowerKey key)).isSome
      ↔ lowerKey key ∈ before.filterMap HeaderQuery.inserted?
        ∨ valuesNamed key (p.headerList.map HeaderLine.pair) ≠ [] := by
  rw [HeaderMap.after_eq, Multimap.touchAll_apply, headerMap_apply]
  by_cases hinserted : lowerKey key ∈ before.filterMap HeaderQuery.inserted?
  · rw [if_pos hinserted]
    exact iff_of_true rfl (.inl hinserted)
  · rw [if_neg hinserted, or_iff_right hinserted]
    split_ifs with hnone
    · exact iff_of_false Bool.false_ne_true fun hsome => hsome hnone
    · exact iff_of_true rfl hnone

/-- One answer after others. -/
theorem answer_after_iff (p : HttpParser) (before : List HeaderQuery) (query : HeaderQuery) :
    (((headerMap p).after before).answer query).1
        = query.expected (p.headerList.map HeaderLine.pair)
      ↔ ∀ earlier ∈ before, ¬ Disturbs (p.headerList.map HeaderLine.pair) earlier query := by
  by_cases hexists : ∃ key, query = .keyExists key
  · obtain ⟨key, rfl⟩ := hexists
    have hfound := isSome_after p before key
    have hnamed := valuesNamed_eq_nil_iff key (p.headerList.map HeaderLine.pair)
    have hany : ((p.headerList.map HeaderLine.pair).any fun header => strcaseEq header.1 key) = true
        ↔ valuesNamed key (p.headerList.map HeaderLine.pair) ≠ [] := by
      rw [Ne, hnamed, List.any_eq_true]
      simp
    rw [HeaderMap.answer, HeaderQuery.expected, HeaderAnswer.found.injEq, Bool.eq_iff_iff, hfound,
      hany, mem_inserted_iff]
    constructor
    · rintro hsame earlier hmem ⟨inserted, key, rfl, hkey, hequal, hnone⟩
      obtain rfl := HeaderQuery.keyExists.inj hkey
      exact hsame.1 (.inl ⟨inserted, hmem, hequal⟩) (hnamed.2 hnone)
    · intro hquiet
      refine ⟨?_, .inr⟩
      rintro (⟨inserted, hmem, hequal⟩ | hsome)
      · intro hnone
        exact hquiet _ hmem ⟨inserted, key, rfl, rfl, hequal, hnamed.1 hnone⟩
      · exact hsome
  · have hother : ∀ key, query ≠ .keyExists key := fun key heq => hexists ⟨key, heq⟩
    refine iff_of_true (((headerMap_holds p).after before).answer_eq hother) ?_
    rintro earlier - ⟨-, key, -, heq, -⟩
    exact hother key heq

/-- The answers to the queries that follow others: the induction is on them, over all that came before. -/
theorem answers_after_iff (p : HttpParser) (before queries : List HeaderQuery) :
    ((headerMap p).after before).answers queries
        = queries.map (HeaderQuery.expected (p.headerList.map HeaderLine.pair))
      ↔ (∀ earlier ∈ before, ∀ later ∈ queries,
          ¬ Disturbs (p.headerList.map HeaderLine.pair) earlier later)
        ∧ queries.Pairwise fun earlier later =>
          ¬ Disturbs (p.headerList.map HeaderLine.pair) earlier later := by
  induction queries generalizing before with
  | nil => simp [HeaderMap.answers]
  | cons query queries ih =>
      rw [HeaderMap.answers, List.map_cons, List.cons_eq_cons, answer_after_iff,
        ← HeaderMap.after_concat, ih, List.pairwise_cons]
      simp only [List.forall_mem_append, List.forall_mem_singleton, List.forall_mem_cons]
      constructor
      · rintro ⟨hquery, ⟨hbefore, hfirst⟩, hrest⟩
        exact ⟨fun earlier hmem => ⟨hquery earlier hmem, hbefore earlier hmem⟩, hfirst, hrest⟩
      · rintro ⟨hbefore, hfirst, hrest⟩
        exact ⟨fun earlier hmem => (hbefore earlier hmem).1,
          ⟨fun earlier hmem => (hbefore earlier hmem).2, hfirst⟩, hrest⟩

end Queries

/-- Queries to the map of a message are answered from its headers, each as if it were the first, exactly
when none of them asks for a key that an earlier one has inserted. -/
theorem answers_iff_pairwise (p : HttpParser) (queries : List HeaderQuery) :
    (headerMap p).answers queries
        = queries.map (HeaderQuery.expected (p.headerList.map HeaderLine.pair))
      ↔ queries.Pairwise fun earlier later =>
          ¬ Disturbs (p.headerList.map HeaderLine.pair) earlier later := by
  have hiff := answers_after_iff p [] queries
  simpa [HeaderMap.after] using hiff

/-- `get_strict` of a name that is not there, and then `key_exists`. -/
theorem not_answers_getStrict :
    let p := (feed [bytesOf "GET / HTTP/1.1\r\nHost: h\r\n\r\n"]
      (freshParser false false zeroedParser)).parser
    let queries := [HeaderQuery.getStrict (bytesOf "Range"), .keyExists (bytesOf "range")]
    p.complete = true
      ∧ p.headerList.map HeaderLine.pair = [(bytesOf "Host", bytesOf "h")]
      ∧ (headerMap p).answers queries = [.vector [], .found true]
      ∧ (headerMap p).answers queries
        ≠ queries.map (HeaderQuery.expected (p.headerList.map HeaderLine.pair)) := by
  decide +kernel

end WorkflowModel.Http
