import WorkflowModel.Algorithm.DNSRoutine
import WorkflowModel.Proof.URIParse
import WorkflowModel.Proof.UrlEncoding

/-!
# Unix sockets in URLs

A host that begins with `%2F` is decoded by the parser, and so it becomes the path of a Unix socket. Nothing
between the parser and the copy of the path looks at its length.
-/

namespace WorkflowModel.Util.URIParser

open Algorithm.DNSRoutine StringUtil

def hostText (str : Bytes) : Bytes :=
  match mark (cString str) with
  | some marks => marks.text (cString str) 2
  | none => []

def nulDigit : UInt8 := 48

/-- The number of characters that a text stands for before its first `%00`, with each escape as one character. -/
def plainLength : Bytes → Nat
  | [] => 0
  | [_] => 1
  | [_, d] => plainLength [d] + 1
  | c :: high :: low :: rest =>
      if c = charPercent ∧ isXDigit high = true ∧ isXDigit low = true then
        if high = nulDigit ∧ low = nulDigit then 0 else plainLength rest + 1
      else plainLength (high :: low :: rest) + 1

theorem escape_eq_nul_iff : ∀ high low : UInt8, isXDigit high = true → isXDigit low = true →
    ((digitValue high * 16 + digitValue low).toUInt8 = charNul ↔ high = nulDigit ∧ low = nulDigit) := by
  have hvalue : ∀ c : UInt8, isXDigit c = true → digitValue c < 16 ∧ (digitValue c = 0 ↔ c = nulDigit) :=
    forall_byte (by decide +kernel)
  intro high low hhigh hlow
  obtain ⟨hh, hhzero⟩ := hvalue high hhigh
  obtain ⟨hl, hlzero⟩ := hvalue low hlow
  rw [← hhzero, ← hlzero, ← UInt8.toNat_inj, Nat.toUInt8, UInt8.toNat_ofNat']
  change (digitValue high * 16 + digitValue low) % 256 = 0 ↔ _
  omega

/-- The length of a text that is decoded and taken for a string of C. -/
theorem length_cString_urlDecode {text : Bytes} (h : charNul ∉ text) :
    (cString (urlDecode text)).length = plainLength text := by
  have hplain : ∀ c : UInt8, c ≠ charNul → (if c = charPlus then charSpace else c) ≠ charNul := by
    intro c hc
    split_ifs
    · decide
    · exact hc
  induction text using urlDecode.induct with
  | case1 => rfl
  | case2 c =>
      rw [urlDecode, cString_cons (hplain c (by simpa [eq_comm] using h))]
      rfl
  | case3 c d ih =>
      obtain ⟨hc, hrest⟩ : charNul ≠ c ∧ charNul ∉ [d] := by simpa using h
      rw [urlDecode, cString_cons (hplain c hc.symm), List.length_cons, ih hrest]
      rfl
  | case4 c high low rest hescape ih =>
      obtain ⟨rfl, hhigh, hlow⟩ := hescape
      have hrest : charNul ∉ rest := by
        intro hmem
        exact h (List.mem_cons_of_mem _ (List.mem_cons_of_mem _ (List.mem_cons_of_mem _ hmem)))
      rw [urlDecode_escape hhigh hlow, plainLength, if_pos ⟨rfl, hhigh, hlow⟩]
      split_ifs with hnul
      · rw [(escape_eq_nul_iff high low hhigh hlow).mpr hnul, cString_nul]
        rfl
      · rw [cString_cons (mt (escape_eq_nul_iff high low hhigh hlow).mp hnul), List.length_cons, ih hrest]
  | case5 c high low rest hplainCase ih =>
      obtain ⟨hc, hrest⟩ : charNul ≠ c ∧ charNul ∉ high :: low :: rest := by simpa using h
      rw [urlDecode, if_neg hplainCase, cString_cons (hplain c hc.symm), List.length_cons, ih hrest, plainLength,
        if_neg hplainCase]

/-- The components of an accepted URL: the host is the text of the host, decoded if it begins with an escaped
slash. -/
theorem host_of_parse {alloc : Nat → Bool} {str : Bytes} {uri : ParsedURI} {host : Bytes}
    (hparse : (parse alloc str uri).1 = 0) (hhost : (parse alloc str uri).2.host = some host) :
    host = storedText 2 (hostText str) ∧ ∀ c ∈ hostText str, validChar 2 c = true := by
  obtain ⟨u, htext, hu, hvalid, hholds, -⟩ := parse_sound hparse
  obtain ⟨marks, hmark, hhas⟩ := mark_text hu
  have hcomponent : hostText str = u.component 2 := by
    unfold hostText
    rw [htext, hmark]
    exact (hhas 2 (by decide)).1
  have hstored := hholds 2 (by decide)
  rw [ParsedURI.Holds, ← hcomponent] at hstored
  rw [hcomponent]
  refine ⟨?_, hvalid 2 (by decide)⟩
  rw [← hcomponent]
  change (parse alloc str uri).2.host = _ at hstored
  rw [hhost] at hstored
  split_ifs at hstored
  exact Option.some.inj hstored

theorem length_copied (host : Bytes) : (copied (cString host)).length = (cString host).length + 1 := by
  have hself : cString (cString host) = cString host := by
    unfold cString
    rw [List.takeWhile_takeWhile]
    simp only [and_self, Bool.decide_eq_true]
  rw [copied, hself, List.length_append, List.length_singleton]

/-- The host of an accepted URL that begins with a slash fits into `sun_path` exactly when the text of the
host stands for at most 107 characters before its first `%00`. -/
theorem copied_fits_iff {alloc : Nat → Bool} {str : Bytes} {uri : ParsedURI} {host : Bytes}
    (hparse : (parse alloc str uri).1 = 0) (hhost : (parse alloc str uri).2.host = some host)
    (hslash : host.head? = some charSlash) :
    (copied (cString host)).length ≤ sunPathSize ↔ plainLength (hostText str) ≤ 107 := by
  obtain ⟨hstored, hvalid⟩ := host_of_parse hparse hhost
  have hnul : charNul ∉ hostText str := notMem_of_validChar hvalid (by decide)
  have hdecoded : host = urlDecode (hostText str) := by
    unfold storedText at hstored
    split_ifs at hstored with hencoded
    · exact hstored
    · -- a slash is no character of a host
      have hmem : charSlash ∈ hostText str := by
        rw [← hstored]
        exact List.mem_of_mem_head? hslash
      exact absurd hmem (notMem_of_validChar hvalid (by decide))
  rw [length_copied, hdecoded, length_cString_urlDecode hnul]
  exact Nat.succ_le_succ_iff

/-- A URL with an escaped slash and `n` letters as its host. -/
def unixUrl (n : Nat) : Bytes := bytesOf "http://%2F" ++ List.replicate n 97

/-- Resolving the host of a URL that keeps the bound ends with an address. -/
theorem copied_fits_iff_short :
    ((copied (cString (charSlash :: List.replicate 3 97))).length ≤ sunPathSize
        ↔ plainLength (hostText (unixUrl 3)) ≤ 107)
      ∧ (run (fun _ _ => (0, [])) ⟨cString (charSlash :: List.replicate 3 97), 80⟩).isSome = true := by
  have hparse : (parse (fun _ => true) (unixUrl 3) .init).1 = 0 := by decide +kernel
  have hfits : (copied (cString (charSlash :: List.replicate 3 97))).length ≤ sunPathSize
      ↔ plainLength (hostText (unixUrl 3)) ≤ 107 := copied_fits_iff hparse (by decide +kernel) rfl
  refine ⟨hfits, ?_⟩
  rw [run_isSome_iff _ (by decide)]
  exact hfits.2 (by decide +kernel)

/-- A path of 108 characters is copied with its NUL behind the end of `sun_path`. -/
theorem not_copied_fits :
    ¬∀ (alloc : Nat → Bool) (str : Bytes) (uri : ParsedURI) (host : Bytes), (parse alloc str uri).1 = 0 →
      (parse alloc str uri).2.host = some host → host.head? = some charSlash →
        (copied (cString host)).length ≤ sunPathSize := by
  intro hall
  have hfits := hall (fun _ => true) (unixUrl 107) .init (charSlash :: List.replicate 107 97) (by decide +kernel)
    (by decide +kernel) rfl
  exact absurd hfits (by decide +kernel)

end WorkflowModel.Util.URIParser
