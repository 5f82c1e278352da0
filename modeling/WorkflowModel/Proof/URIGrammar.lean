import WorkflowModel.Proof.URIParse

/-!
# The grammar of the URI parser

The URIs that the comment and the tables of the parser describe, and which of them it accepts: those with a
userinfo, and those without one that have no `@` in the path, the query or the fragment either.
-/

namespace WorkflowModel.Util.URIParser

/-- A URI of the grammar scheme://[userinfo@]host[:port][/path][?query][#fragment], over the characters that are
valid for each component. The host is not in brackets and is not decoded. -/
structure Uri extends Parts where
  letter : ∃ c rest, scheme = c :: rest ∧ isAlpha c = true
  valid : ∀ i < 7, ∀ c ∈ toParts.component i, validChar i c = true
  plain : bracketed = false
  host_ne_nil : host ≠ []
  colon_notMem_host : charColon ∉ host
  host_not_encoded : startsEncoded host = false
  userinfo_ne : userinfo ≠ some []
  port_ne : port ≠ some []
  query_ne : query ≠ some []
  fragment_ne : fragment ≠ some []

variable {str : Bytes} {alloc : Nat → Bool} {uri : ParsedURI} {i : Nat}

namespace Uri

/-- The components as they are given, with the absent ones as null pointers. -/
def given (u : Uri) : Nat → Option Bytes
  | 0 => some u.scheme
  | 1 => u.userinfo
  | 2 => some u.host
  | 3 => u.port
  | 4 => u.path.map (charSlash :: ·)
  | 5 => u.query
  | 6 => u.fragment
  | _ => none

theorem eq_ite_of_ne {o : Option Bytes} (h : o ≠ some []) : o = if o.getD [] = [] then none else some (o.getD []) := by
  cases o with
  | none => rfl
  | some t => rw [Option.getD_some, if_neg fun ht => h (congrArg some ht)]

theorem given_eq (u : Uri) (hi : i < 7) : u.given i =
    if u.component i = [] then none else some (storedText i (u.component i)) := by
  have hscheme : u.scheme ≠ [] := by
    obtain ⟨c, rest, hc, -⟩ := u.letter
    rw [hc]
    exact List.cons_ne_nil c rest
  interval_cases i
  · exact (if_neg hscheme).symm
  · exact eq_ite_of_ne u.userinfo_ne
  · rw [given, Parts.component, if_neg u.host_ne_nil, storedText, if_neg]
    rw [u.host_not_encoded]
    simp
  · exact eq_ite_of_ne u.port_ne
  · cases hpath : u.path <;> simp [given, Parts.component, storedText, hpath]
  · exact eq_ite_of_ne u.query_ne
  · exact eq_ite_of_ne u.fragment_ne

end Uri

theorem mem_elim_cons_iff {c d : UInt8} (h : c ≠ d) (o : Option Bytes) : c ∈ o.elim [] (d :: ·) ↔ c ∈ o.getD [] := by
  cases o with
  | none => exact Iff.rfl
  | some t =>
      rw [Option.elim_some, Option.getD_some, List.mem_cons]
      exact or_iff_right h

namespace Parts

theorem mem_tail_iff (u : Parts) {c : UInt8} (h : c ∉ sep) :
    c ∈ u.tail ↔ c ∈ u.component 3 ∨ c ∈ u.component 4 ∨ c ∈ u.component 5 ∨ c ∈ u.component 6 := by
  simp only [sep, List.mem_cons, List.not_mem_nil, or_false, not_or] at h
  obtain ⟨hcolon, -, hquestion, hhash⟩ := h
  rw [tail, List.mem_append, List.mem_append, List.mem_append, mem_elim_cons_iff hcolon, mem_elim_cons_iff hquestion,
    mem_elim_cons_iff hhash]
  rfl

/-- A character of the text that is no delimiter is in a component. -/
theorem exists_component_of_mem_text (u : Parts) {c : UInt8} (hc : c ∈ u.text) (hsep : c ∉ sep)
    (hother : c ∉ [charAt, charOpen, charClose]) : ∃ i < 7, c ∈ u.component i := by
  have hslash : c ∉ [charColon, charSlash, charSlash] := by
    intro h
    apply hsep
    simp only [sep, List.mem_cons, List.not_mem_nil, or_false] at h ⊢
    tauto
  simp only [List.mem_cons, List.not_mem_nil, or_false, not_or] at hother
  obtain ⟨hat, hopen, hclose⟩ := hother
  rw [text, List.mem_append, List.mem_append, authority, List.mem_append, List.mem_append] at hc
  rcases hc with hscheme | hdelimiter | huser | hhost | htail
  · exact ⟨0, by decide, hscheme⟩
  · exact absurd hdelimiter hslash
  · refine ⟨1, by decide, ?_⟩
    cases huserinfo : u.userinfo with
    | none => simp [huserinfo] at huser
    | some w =>
        rw [huserinfo, Option.elim_some, List.mem_append, List.mem_singleton, or_iff_left hat] at huser
        rw [component, huserinfo]
        exact huser
  · refine ⟨2, by decide, ?_⟩
    rw [hostText] at hhost
    split at hhost
    · simpa [hopen, hclose, component] using hhost
    · exact hhost
  · rcases (u.mem_tail_iff hsep).mp htail with h | h | h | h
    · exact ⟨3, by decide, h⟩
    · exact ⟨4, by decide, h⟩
    · exact ⟨5, by decide, h⟩
    · exact ⟨6, by decide, h⟩

end Parts

namespace Uri

theorem notMem_component (u : Uri) (hi : i < 7) {c : UInt8} (hc : validChar i c = false) : c ∉ u.component i :=
  notMem_of_validChar (u.valid i hi) hc

theorem cString_text (u : Uri) : cString u.text = u.text := by
  rw [cString, List.takeWhile_eq_self_iff]
  intro c hc
  rw [bne_iff_ne]
  rintro rfl
  obtain ⟨i, hi, hmem⟩ := u.exists_component_of_mem_text hc (by decide) (by decide)
  have hrow : validChar i charNul = false := by
    interval_cases i <;> decide
  exact u.notMem_component hi hrow hmem

theorem free_of_validChar {t : Bytes} {l : List UInt8} (h : ∀ c ∈ t, validChar i c = true)
    (hl : ∀ d ∈ l, validChar i d = false) : ∀ c ∈ t, c ∉ l := by
  intro c hc hmem
  exact notMem_of_validChar h (hl c hmem) hc

theorem pieces (u : Uri) : Pieces 0 u.pieces := by
  apply Pieces.join _ (by decide)
  · intro t ht
    have hvalid : ∀ c ∈ t, validChar 3 c = true := by
      have := u.valid 3 (by decide)
      rwa [Parts.component, ht] at this
    exact free_of_validChar hvalid (by decide +kernel)
  · apply Pieces.join _ (by decide)
    · intro t ht
      have hvalid : ∀ c ∈ charSlash :: t, validChar 4 c = true := by
        have := u.valid 4 (by decide)
        rwa [Parts.component, ht] at this
      exact free_of_validChar (fun c hc => hvalid c (List.mem_cons_of_mem _ hc)) (by decide +kernel)
    · apply Pieces.join _ (by decide)
      · intro t ht
        have hvalid : ∀ c ∈ t, validChar 5 c = true := by
          have := u.valid 5 (by decide)
          rwa [Parts.component, ht] at this
        exact free_of_validChar hvalid (by decide +kernel)
      · apply Pieces.join .nil (by decide)
        intro t _ c _
        exact List.not_mem_nil

/-- The condition under which the first `@` is that of the userinfo. -/
def AtIsDelimiter (u : Uri) : Prop :=
  u.userinfo ≠ none ∨ (charAt ∉ u.component 4 ∧ charAt ∉ u.component 5 ∧ charAt ∉ u.component 6)

theorem charAt_notMem_host (u : Uri) : charAt ∉ u.hostText := by
  rw [Parts.hostText, u.plain]
  exact u.notMem_component (i := 2) (by decide) (by decide)

theorem delimited (u : Uri) (h : u.AtIsDelimiter) : u.Delimited := by
  constructor
  · obtain ⟨c, rest, hscheme, hc⟩ := u.letter
    refine ⟨c, rest, hscheme, hc, ?_⟩
    intro d hd
    apply u.valid 0 (by decide)
    rw [Parts.component, hscheme]
    exact List.mem_cons_of_mem c hd
  · intro w hw
    have := u.notMem_component (i := 1) (c := charAt) (by decide) (by decide)
    rwa [Parts.component, hw] at this
  · intro hnone
    obtain ⟨hpath, hquery, hfragment⟩ := h.resolve_left (not_not.mpr hnone)
    rw [List.mem_append, u.mem_tail_iff (by decide)]
    rintro (hmem | hmem | hmem | hmem | hmem)
    · exact u.charAt_notMem_host hmem
    · exact u.notMem_component (by decide) (by decide) hmem
    · exact hpath hmem
    · exact hquery hmem
    · exact hfragment hmem
  · intro _
    refine ⟨?_, ?_⟩
    · intro c hc hsep
      have hall : ∀ d ∈ sep, d = charColon ∨ validChar 2 d = false := by decide +kernel
      rcases hall c hsep with rfl | hrow
      · exact u.colon_notMem_host hc
      · exact u.notMem_component (i := 2) (by decide) hrow hc
    · intro hhead
      exact u.notMem_component (i := 2) (c := charOpen) (by decide) (by decide) (List.mem_of_head? hhead)
  · intro hbracketed
    rw [u.plain] at hbracketed
    contradiction
  · exact u.pieces

theorem parse_of_atIsDelimiter (u : Uri) (uri : ParsedURI) (halloc : ∀ i, alloc i = true) (h : u.AtIsDelimiter) :
    (parse alloc u.text uri).1 = 0 ∧ ∀ i < 7, (parse alloc u.text uri).2.dst i = u.given i := by
  obtain ⟨marks, hmark, hhas⟩ := mark_text (u.delimited h)
  rw [← u.cString_text] at hmark
  have hvalid : allValid (cString u.text) marks = true := by
    rw [u.cString_text, allValid_iff hhas]
    intro i _ hi
    exact u.valid i hi
  obtain ⟨uri', hstore⟩ : ∃ uri', store alloc (cString u.text) marks [0, 1, 2, 3, 4, 5, 6]
      { uri with state := .invalid } = (true, uri') :=
    ⟨_, Prod.ext (store_fst halloc _ _ _ _) rfl⟩
  have hzero : (parse alloc u.text uri).1 = 0 := by
    rw [parse_eq hmark hvalid hstore]
  refine ⟨hzero, ?_⟩
  intro i hi
  obtain ⟨hholds, -⟩ := store_holds (s := cString u.text) (by rw [u.cString_text]; exact hhas) (by decide) (by decide)
    hstore
  have hmem : i ∈ [0, 1, 2, 3, 4, 5, 6] := by
    interval_cases i <;> simp
  have := hholds i hmem
  rw [u.given_eq hi, parse_eq hmark hvalid hstore]
  interval_cases i <;> exact this

theorem mem_of_append_cons_eq {w x y z : Bytes} {c d : UInt8} (h : w ++ c :: x = y ++ d :: z) (hc : c ∉ y)
    (hne : c ≠ d) : d ∈ w := by
  rcases List.append_eq_append_iff.mp h with ⟨l, hy, hl⟩ | ⟨l, hw, hl⟩
  · exfalso
    cases l with
    | nil => exact hne (List.cons.inj hl).1
    | cons e l =>
        apply hc
        rw [hy, (List.cons.inj hl).1]
        simp
  · cases l with
    | nil => exact absurd (List.cons.inj hl).1.symm hne
    | cons e l =>
        rw [hw, (List.cons.inj hl).1]
        simp

theorem eq_of_append_cons_eq {w x y z : Bytes} {c : UInt8} (h : w ++ c :: x = y ++ c :: z) (hw : c ∉ w)
    (hy : c ∉ y) : x = z := by
  rcases List.append_eq_append_iff.mp h with ⟨l, hl, hrest⟩ | ⟨l, hl, hrest⟩
  · cases l with
    | nil => exact (List.cons.inj hrest).2
    | cons e l =>
        exfalso
        apply hy
        rw [hl, (List.cons.inj hrest).1]
        simp
  · cases l with
    | nil => exact (List.cons.inj hrest).2.symm
    | cons e l =>
        exfalso
        apply hw
        rw [hl, (List.cons.inj hrest).1]
        simp

/-- What comes before a late `@` has one of the delimiters of the later components. -/
theorem exists_delimiter (u : Uri) (hnone : u.userinfo = none) (h : ¬ u.AtIsDelimiter) :
    ∃ y d z, u.authority = y ++ d :: z ∧ charAt ∉ y ∧ d ∈ [charSlash, charQuestion, charHash] := by
  have hauthority : u.authority = u.hostText ++ u.tail := by
    rw [Parts.authority, hnone]
    rfl
  have hnot : charAt ∉ u.hostText ++ u.port.elim [] (charColon :: ·) := by
    rw [List.mem_append, mem_elim_cons_iff (by decide)]
    rintro (hmem | hmem)
    · exact u.charAt_notMem_host hmem
    · exact u.notMem_component (i := 3) (by decide) (by decide) hmem
  rw [hauthority, Parts.tail, ← List.append_assoc]
  cases hpath : u.path with
  | some path => exact ⟨_, charSlash, path ++ _, rfl, hnot, by decide⟩
  | none =>
      cases hquery : u.query with
      | some query => exact ⟨_, charQuestion, query ++ _, rfl, hnot, by decide⟩
      | none =>
          cases hfragment : u.fragment with
          | some fragment => exact ⟨_, charHash, fragment, rfl, hnot, by decide⟩
          | none =>
              exfalso
              apply h
              right
              simp [Parts.component, hpath, hquery, hfragment]

theorem authority_eq (u : Uri) {v : Parts} (htext : u.text = v.text)
    (hv : ∀ i < 7, ∀ c ∈ v.component i, validChar i c = true) : u.authority = v.authority := by
  have hu := u.notMem_component (i := 0) (c := charColon) (by decide) (by decide)
  have hv' : charColon ∉ v.scheme := notMem_of_validChar (hv 0 (by decide)) (by decide)
  have hbehind := eq_of_append_cons_eq htext hu hv'
  simpa using hbehind

theorem parse_ne_zero (u : Uri) (uri : ParsedURI) (h : ¬ u.AtIsDelimiter) : (parse alloc u.text uri).1 ≠ 0 := by
  intro hzero
  have hnone : u.userinfo = none := by
    by_contra hne
    exact h (Or.inl hne)
  obtain ⟨v, htext, hdelimited, hvalid, -, -⟩ := parse_sound hzero
  rw [u.cString_text] at htext
  have hauthority := u.authority_eq htext hvalid
  obtain ⟨y, d, z, hsplit, hy, hd⟩ := u.exists_delimiter hnone h
  cases huser : v.userinfo with
  | none =>
      -- then there is no `@` in the authority at all
      have hnot := hdelimited.noUserinfo huser
      have hv : v.authority = v.hostText ++ v.tail := by
        rw [Parts.authority, huser]
        rfl
      have hu : u.authority = u.hostText ++ u.tail := by
        rw [Parts.authority, hnone]
        rfl
      rw [← hv, ← hauthority, hu, List.mem_append, u.mem_tail_iff (by decide)] at hnot
      apply h
      right
      tauto
  | some w =>
      -- the parser takes the text before the `@` for the userinfo
      have hv : v.authority = w ++ charAt :: (v.hostText ++ v.tail) := by
        rw [Parts.authority, huser]
        simp
      have hne : charAt ≠ d := by
        rintro rfl
        exact absurd hd (by decide)
      have hmem : d ∈ w := mem_of_append_cons_eq (hv.symm.trans (hauthority.symm.trans hsplit)) hy hne
      have hrow : ∀ d ∈ [charSlash, charQuestion, charHash], validChar 1 d = false := by decide +kernel
      have hw := hvalid 1 (by decide)
      rw [Parts.component, huser] at hw
      exact notMem_of_validChar hw (hrow d hd) hmem

/-- The parser accepts a URI of its grammar and gives its components if and only if the first `@` behind the
scheme, if there is one, is that of the userinfo. -/
theorem parse_iff_atIsDelimiter (u : Uri) (uri : ParsedURI) (halloc : ∀ i, alloc i = true) :
    ((parse alloc u.text uri).1 = 0 ∧ ∀ i < 7, (parse alloc u.text uri).2.dst i = u.given i)
      ↔ u.AtIsDelimiter := by
  constructor
  · rintro ⟨hzero, -⟩
    by_contra h
    exact u.parse_ne_zero uri h hzero
  · exact u.parse_of_atIsDelimiter uri halloc

/-- `http://h/a@b`. -/
def atInPath : Uri :=
  { scheme := bytesOf "http", userinfo := none, host := bytesOf "h", bracketed := false, port := none,
    path := some (bytesOf "a@b"), query := none, fragment := none,
    letter := ⟨_, _, rfl, by decide⟩
    valid := by decide +kernel
    plain := rfl
    host_ne_nil := by decide
    colon_notMem_host := by decide
    host_not_encoded := by decide
    userinfo_ne := by decide
    port_ne := by decide
    query_ne := by decide
    fragment_ne := by decide }

/-- `http://u@h/a@b`. -/
def atBehindUserinfo : Uri :=
  { atInPath with
    userinfo := some (bytesOf "u")
    valid := by decide +kernel
    userinfo_ne := by decide }

theorem parse_iff_atBehindUserinfo :
    ¬((parse (fun _ => true) atInPath.text .init).1 = 0
        ∧ ∀ i < 7, (parse (fun _ => true) atInPath.text .init).2.dst i = atInPath.given i)
      ∧ (parse (fun _ => true) atBehindUserinfo.text .init).1 = 0
      ∧ ∀ i < 7, (parse (fun _ => true) atBehindUserinfo.text .init).2.dst i = atBehindUserinfo.given i := by
  constructor
  · rw [parse_iff_atIsDelimiter atInPath .init fun _ => rfl]
    rintro (huserinfo | ⟨hpath, -⟩)
    · exact huserinfo rfl
    · exact hpath (by decide)
  · exact (parse_iff_atIsDelimiter atBehindUserinfo .init fun _ => rfl).mpr (.inl (by decide))

theorem not_complete : ¬ ∀ (u : Uri) (uri : ParsedURI), (parse (fun _ => true) u.text uri).1 = 0
    ∧ ∀ i < 7, (parse (fun _ => true) u.text uri).2.dst i = u.given i := by
  intro hcomplete
  have hfails : (parse (fun _ => true) atInPath.text .init).1 = -1 := by decide +kernel
  have := (hcomplete atInPath .init).1
  rw [hfails] at this
  exact absurd this (by decide)

end Uri

end WorkflowModel.Util.URIParser
