import Mathlib.Data.Fintype.Basic
import WorkflowModel.Proof.URISplit

/-!
# What the URI parser accepts

The parser gives the components of a string only if the string is composed of them, and it gives the
components of every composed URI, unless there is no userinfo and an `@` comes later: the search for the `@`
does not stop at the end of the authority, so what comes before that `@` is taken for the userinfo.
-/

namespace WorkflowModel.Util.URIParser

variable {s str : Bytes} {marks : Marks} {alloc : Nat → Bool} {uri uri' : ParsedURI} {u : Parts} {i j : Nat}

theorem dst_setDst_self (hi : i < 7) (text : Option Bytes) : (uri.setDst i text).dst i = text := by
  interval_cases i <;> rfl

theorem dst_setDst_of_ne (h : j ≠ i) (text : Option Bytes) : (uri.setDst i text).dst j = uri.dst j := by
  by_cases hi : i < 7
  · by_cases hj : j < 7
    · interval_cases i <;> interval_cases j <;> first | rfl | contradiction
    · obtain ⟨j, rfl⟩ := Nat.exists_eq_add_of_le' (Nat.le_of_not_lt hj)
      rfl
  · obtain ⟨i, rfl⟩ := Nat.exists_eq_add_of_le' (Nat.le_of_not_lt hi)
    rfl

def ParsedURI.Holds (uri : ParsedURI) (u : Parts) (i : Nat) : Prop :=
  uri.dst i = if u.component i = [] then none else some (storedText i (u.component i))

theorem store_holds {indices : List Nat} (hhas : ∀ i < 7, marks.Has s i (u.component i))
    (hindices : ∀ i ∈ indices, i < 7) (hnodup : indices.Nodup)
    (hstore : store alloc s marks indices uri = (true, uri')) :
    (∀ i ∈ indices, uri'.Holds u i) ∧ ∀ j ∉ indices, uri'.dst j = uri.dst j := by
  induction indices generalizing uri with
  | nil =>
      obtain rfl : uri = uri' := congrArg Prod.snd hstore
      exact ⟨by simp, fun _ _ => rfl⟩
  | cons i rest ih =>
      have hi : i < 7 := hindices i List.mem_cons_self
      obtain ⟨hnot, hrest⟩ := List.nodup_cons.mp hnodup
      obtain ⟨htext, hlength⟩ := hhas i hi
      have hdone : ∃ text, store alloc s marks rest (uri.setDst i text) = (true, uri')
          ∧ text = if u.component i = [] then none else some (storedText i (u.component i)) := by
        rw [store, hlength, htext] at hstore
        simp only [List.length_eq_zero_iff] at hstore
        split at hstore
        next hnil => exact ⟨none, hstore, by rw [if_pos hnil]⟩
        next hne =>
          split at hstore
          · exact ⟨_, hstore, by rw [if_neg hne]⟩
          · exact absurd (congrArg Prod.fst hstore) (by simp)
      obtain ⟨text, hdone, rfl⟩ := hdone
      obtain ⟨hlater, hsame⟩ := ih (fun j hj => hindices j (List.mem_cons_of_mem i hj)) hrest hdone
      refine ⟨?_, ?_⟩
      · intro j hj
        rcases List.mem_cons.mp hj with rfl | hj
        · rw [ParsedURI.Holds, hsame j hnot, dst_setDst_self hi]
        · exact hlater j hj
      · intro j hj
        rw [List.mem_cons, not_or] at hj
        rw [hsame j hj.2, dst_setDst_of_ne hj.1]

theorem store_fst (halloc : ∀ i, alloc i = true) (s : Bytes) (marks : Marks) (indices : List Nat) (uri : ParsedURI) :
    (store alloc s marks indices uri).1 = true := by
  induction indices generalizing uri with
  | nil => rfl
  | cons i rest ih =>
      rw [store]
      split
      · exact ih _
      · rw [if_pos (halloc i)]
        exact ih _

theorem validChar_of_isAlpha {c : UInt8} (h : isAlpha c = true) : validChar 0 c = true := by
  have hall : ∀ n : Fin 256, isAlpha (UInt8.ofNat n) = true → validChar 0 (UInt8.ofNat n) = true := by
    decide +kernel
  have hc : UInt8.ofNat c.toNat = c := UInt8.ofNat_toNat
  have := hall ⟨c.toNat, c.toNat_lt⟩
  rw [hc] at this
  exact this h

theorem notMem_of_validChar {t : Bytes} {c : UInt8} (h : ∀ d ∈ t, validChar i d = true)
    (hc : validChar i c = false) : c ∉ t := by
  intro hmem
  rw [h c hmem] at hc
  contradiction

theorem allValid_iff (hhas : ∀ i < 7, marks.Has s i (u.component i)) :
    allValid s marks = true ↔ ∀ i, 1 ≤ i → i < 7 → ∀ c ∈ u.component i, validChar i c = true := by
  have htext : ∀ i < 7, marks.text s i = u.component i := fun i hi => (hhas i hi).1
  rw [allValid, List.all_eq_true]
  constructor
  · intro h i hpos hi c hc
    have hmem : i ∈ [1, 2, 3, 4, 5, 6] := by
      interval_cases i <;> simp
    have hrow := h i hmem
    rw [htext i hi, List.all_eq_true] at hrow
    exact hrow c hc
  · intro h i hmem
    have hi : 1 ≤ i ∧ i < 7 := by
      simp only [List.mem_cons, List.not_mem_nil, or_false] at hmem
      omega
    rw [htext i hi.2, List.all_eq_true]
    exact h i hi.1 hi.2

theorem parse_eq (hmark : mark (cString str) = some marks) (hvalid : allValid (cString str) marks = true)
    (hstore : store alloc (cString str) marks [0, 1, 2, 3, 4, 5, 6] { uri with state := .invalid } = (true, uri')) :
    parse alloc str uri = (0, { uri' with state := .success }) := by
  simp only [parse, hmark, hvalid, hstore, if_true]

theorem exists_of_parse (h : (parse alloc str uri).1 = 0) :
    ∃ marks uri', mark (cString str) = some marks ∧ allValid (cString str) marks = true
      ∧ store alloc (cString str) marks [0, 1, 2, 3, 4, 5, 6] { uri with state := .invalid } = (true, uri') := by
  rcases hmark : mark (cString str) with _ | marks
  · simp [parse, hmark] at h
  · cases hvalid : allValid (cString str) marks with
    | false => simp [parse, hmark, hvalid] at h
    | true =>
        rcases hstore : store alloc (cString str) marks [0, 1, 2, 3, 4, 5, 6] { uri with state := .invalid }
          with ⟨_ | _, uri'⟩
        · simp [parse, hmark, hvalid, hstore] at h
        · exact ⟨marks, uri', rfl, hvalid, hstore⟩

/-- A parsed string is composed of parts that are delimited and have valid characters, and the result has exactly the
components of these parts. -/
theorem parse_sound (h : (parse alloc str uri).1 = 0) :
    ∃ u : Parts, cString str = u.text ∧ u.Delimited ∧ (∀ i < 7, ∀ c ∈ u.component i, validChar i c = true)
      ∧ (∀ i < 7, (parse alloc str uri).2.Holds u i) ∧ (parse alloc str uri).2.state = .success := by
  obtain ⟨marks, uri₁, hmark, hvalid, hstore⟩ := exists_of_parse h
  have hparse := parse_eq hmark hvalid hstore
  obtain ⟨u, htext, hu⟩ := exists_parts (charNul_notMem_cString str) (by rw [hmark]; rfl)
  obtain ⟨m, hm, hhas⟩ := mark_text hu
  rw [← htext, hmark, Option.some.injEq] at hm
  rw [← hm, ← htext] at hhas
  obtain ⟨hholds, -⟩ := store_holds hhas (by decide) (by decide) hstore
  refine ⟨u, htext, hu, ?_, ?_, by rw [hparse]⟩
  · intro i hi c hc
    rcases Nat.eq_zero_or_pos i with rfl | hpos
    · obtain ⟨d, rest, hscheme, hd, hrest⟩ := hu.scheme
      rw [Parts.component, hscheme] at hc
      rcases List.mem_cons.mp hc with rfl | hc
      · exact validChar_of_isAlpha hd
      · exact hrest c hc
    · exact (allValid_iff hhas).mp hvalid i hpos hi c hc
  · intro i hi
    have hmem : i ∈ [0, 1, 2, 3, 4, 5, 6] := by
      interval_cases i <;> simp
    have := hholds i hmem
    rw [hparse]
    interval_cases i <;> exact this

def previousUri : ParsedURI :=
  { ParsedURI.init with userinfo := some (bytesOf "me"), host := some (bytesOf "a.b"), query := some (bytesOf "x") }

theorem parse_sound_bracketed :
    (parse (fun _ => true) (bytesOf "http://u:p@[::1]:80/a#b") previousUri).2.dst 5 = none
      ∧ ∃ u : Parts, cString (bytesOf "http://u:p@[::1]:80/a#b") = u.text ∧ u.Delimited
        ∧ (∀ i < 7, ∀ c ∈ u.component i, validChar i c = true)
        ∧ (∀ i < 7, (parse (fun _ => true) (bytesOf "http://u:p@[::1]:80/a#b") previousUri).2.Holds u i)
        ∧ (parse (fun _ => true) (bytesOf "http://u:p@[::1]:80/a#b") previousUri).2.state = .success :=
  ⟨by decide +kernel, parse_sound (by decide +kernel)⟩

end WorkflowModel.Util.URIParser
