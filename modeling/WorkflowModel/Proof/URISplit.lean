import Mathlib.Data.List.TakeWhile
import WorkflowModel.Proof.URIParts

/-!
# Every string that is marked is composed of parts

The converse of `mark_text`, phase by phase: where a loop of the parser stops, the string is the text before, the
character that stopped it and the rest.
-/

namespace WorkflowModel.Util.URIParser

variable {s a r : Bytes} {marks : Marks} {last : Nat}

theorem exists_skipWhile (p : UInt8 → Bool) (hs : s = a ++ r) :
    ∃ w r', r = w ++ r' ∧ (∀ c ∈ w, p c = true) ∧ (∀ c, r'.head? = some c → p c = false)
      ∧ skipWhile p s a.length = (a ++ w).length := by
  have hstop : ∀ c, (r.dropWhile p).head? = some c → p c = false := by
    intro c hc
    have := List.head?_dropWhile_not p r
    rw [hc] at this
    simpa using this
  have hall : ∀ c ∈ r.takeWhile p, p c = true := fun c hc => List.mem_takeWhile_imp hc
  refine ⟨r.takeWhile p, r.dropWhile p, List.takeWhile_append_dropWhile.symm, hall, hstop, ?_⟩
  apply skipWhile_eq _ hall hstop
  rw [hs, List.append_assoc, List.takeWhile_append_dropWhile]

theorem eq_cons_of_headD {c : UInt8} (h : r.headD charNul = c) (hc : c ≠ charNul) : ∃ rest, r = c :: rest := by
  cases r with
  | nil => exact absurd h.symm hc
  | cons d rest => exact ⟨rest, by rw [← h]; rfl⟩

theorem strAt_add (hs : s = a ++ r) (k : Nat) : strAt s (a.length + k) = strAt r k := by
  rw [strAt, strAt, hs, List.getD_eq_getElem?_getD, List.getD_eq_getElem?_getD,
    List.getElem?_append_right (Nat.le_add_right _ _), Nat.add_sub_cancel_left]

theorem exists_of_delimiter (h : strAt r 0 = charColon ∧ strAt r 1 = charSlash ∧ strAt r 2 = charSlash) :
    ∃ rest, r = [charColon, charSlash, charSlash] ++ rest := by
  obtain ⟨hcolon, hslash, hslash'⟩ := h
  rcases r with _ | ⟨c, _ | ⟨d, _ | ⟨e, rest⟩⟩⟩
  · exact absurd (show charNul = charColon from hcolon) (by decide)
  · exact absurd (show charNul = charSlash from hslash) (by decide)
  · exact absurd (show charNul = charSlash from hslash') (by decide)
  · refine ⟨rest, ?_⟩
    rw [← hcolon, ← hslash]
    change c :: d :: e :: rest = c :: d :: d :: rest
    rw [show d = e from hslash.trans hslash'.symm]

theorem Pieces.exists_parts {ps : List (Nat × Bytes)} (h : Pieces 0 ps) :
    ∃ port path query fragment : Option Bytes, ps = (port.map (0, ·)).toList ++ ((path.map (1, ·)).toList
      ++ ((query.map (2, ·)).toList ++ ((fragment.map (3, ·)).toList ++ []))) := by
  obtain ⟨port, ps₁, rfl, -, h₁⟩ := h.split (by decide)
  obtain ⟨path, ps₂, rfl, -, h₂⟩ := h₁.split (by decide)
  obtain ⟨query, ps₃, rfl, -, h₃⟩ := h₂.split (by decide)
  obtain ⟨fragment, ps₄, rfl, -, h₄⟩ := h₃.split (by decide)
  cases h₄ with
  | nil => exact ⟨port, path, query, fragment, rfl⟩
  | cons hle hlt => omega

theorem exists_host (hs : s = a ++ r) (hnul : charNul ∉ r)
    (hmark : (markHost s marks last a.length).isSome = true) :
    ∃ host bracketed ps, r = (if bracketed = true then charOpen :: (host ++ [charClose]) else host) ++ flat ps
      ∧ (bracketed = false → (∀ c ∈ host, c ∉ sep) ∧ host.head? ≠ some charOpen)
      ∧ (bracketed = true → charClose ∉ host) ∧ Pieces 0 ps := by
  rw [markHost] at hmark
  by_cases hopen : strAt s a.length = charOpen
  · rw [if_pos hopen] at hmark
    rw [strAt_length hs] at hopen
    obtain ⟨r₁, rfl⟩ := eq_cons_of_headD hopen (by decide)
    have hs₁ : s = (a ++ [charOpen]) ++ r₁ := by simp [hs]
    obtain ⟨w, r₂, rfl, hw, hstop, hskip⟩ := exists_skipWhile (· != charClose) hs₁
    have hs₂ : s = (a ++ [charOpen] ++ w) ++ r₂ := by simp [hs]
    have hbehind : (a ++ [charOpen]).length = a.length + 1 := List.length_append
    rw [hbehind] at hskip
    simp only [hskip] at hmark
    split at hmark
    · contradiction
    next hclose =>
      rw [not_not, strAt_length hs₂] at hclose
      obtain ⟨r₃, rfl⟩ := eq_cons_of_headD hclose (by decide)
      have hs₃ : s = (a ++ [charOpen] ++ w ++ [charClose]) ++ r₃ := by simp [hs]
      have hnext : (a ++ [charOpen] ++ w ++ [charClose]).length = (a ++ [charOpen] ++ w).length + 1 :=
        List.length_append
      split at hmark
      · contradiction
      next hend =>
        rw [← hnext, strAt_length hs₃] at hend
        obtain ⟨t, ps, rfl, hfree, hps⟩ := exists_pieces 0 r₃
        have ht : t = [] := by
          cases t with
          | nil => rfl
          | cons c t =>
              exfalso
              apply hend
              refine ⟨?_, hfree c List.mem_cons_self⟩
              rintro rfl
              exact hnul (by simp)
        subst ht
        refine ⟨w, true, ps, by simp, by simp, ?_, hps⟩
        intro _ hmem
        have := hw charClose hmem
        simp at this
  · rw [strAt_length hs] at hopen
    obtain ⟨host, ps, rfl, hfree, hps⟩ := exists_pieces 0 r
    refine ⟨host, false, ps, rfl, fun _ => ⟨hfree, ?_⟩, by simp, hps⟩
    intro hhead
    cases host with
    | nil => exact absurd hhead (by simp)
    | cons c host => exact hopen (Option.some.inj hhead)

theorem exists_authority {scheme : Bytes} (hs : s = a ++ r) (hnul : charNul ∉ r)
    (hscheme : ∃ c rest, scheme = c :: rest ∧ isAlpha c = true ∧ ∀ d ∈ rest, validChar 0 d = true)
    (hmark : (markAuthority s marks a.length).isSome = true) :
    ∃ u : Parts, u.scheme = scheme ∧ r = u.authority ∧ u.Delimited := by
  obtain ⟨w, r', rfl, hw, hstop, hskip⟩ := exists_skipWhile (· != charAt) hs
  have hnot : charAt ∉ w := by
    intro hmem
    have := hw charAt hmem
    simp at this
  simp only [markAuthority, hskip] at hmark
  cases r' with
  | nil =>
      rw [List.append_nil] at hs hnul ⊢
      rw [hs, if_neg (Nat.lt_irrefl _), ← hs] at hmark
      obtain ⟨host, bracketed, ps, rfl, hhost, hbracketed, hps⟩ := exists_host hs hnul hmark
      obtain ⟨port, path, query, fragment, rfl⟩ := hps.exists_parts
      refine ⟨⟨scheme, none, host, bracketed, port, path, query, fragment⟩, rfl, ?_, hscheme, by simp, ?_, hhost,
        hbracketed, hps⟩
      · rw [Parts.authority, ← Parts.flat_pieces]
        rfl
      · rw [← Parts.flat_pieces]
        exact fun _ => hnot
  | cons c r' =>
      obtain rfl : c = charAt := by simpa using hstop c rfl
      have hs' : s = (a ++ w ++ [charAt]) ++ r' := by simp [hs]
      have hnext : (a ++ w ++ [charAt]).length = (a ++ w).length + 1 := List.length_append
      have hlt : (a ++ w).length < s.length := by
        have hlength := congrArg List.length hs'
        rw [List.length_append, hnext] at hlength
        omega
      rw [if_pos hlt, ← hnext] at hmark
      have hnul' : charNul ∉ r' := fun hmem => hnul (by simp [hmem])
      obtain ⟨host, bracketed, ps, rfl, hhost, hbracketed, hps⟩ := exists_host hs' hnul' hmark
      obtain ⟨port, path, query, fragment, rfl⟩ := hps.exists_parts
      refine ⟨⟨scheme, some w, host, bracketed, port, path, query, fragment⟩, rfl, ?_, hscheme, ?_, by simp, hhost,
        hbracketed, hps⟩
      · rw [Parts.authority, ← Parts.flat_pieces]
        simp [Parts.hostText, Parts.pieces]
      · intro w' hw'
        rwa [← Option.some.inj hw']

/-- A string that is marked is composed of parts. -/
theorem exists_parts (hnul : charNul ∉ s) (hmark : (mark s).isSome = true) :
    ∃ u : Parts, s = u.text ∧ u.Delimited := by
  rw [mark] at hmark
  split at hmark
  · contradiction
  next hfirst =>
    obtain ⟨hne, halpha⟩ := not_or.mp hfirst
    rw [Bool.not_eq_false] at halpha
    cases s with
    | nil => exact absurd rfl hne
    | cons c r =>
        obtain ⟨w, r₁, rfl, hw, -, hskip⟩ := exists_skipWhile (validChar 0) (s := c :: r) (a := [c]) rfl
        rw [List.length_singleton] at hskip
        simp only [hskip] at hmark
        split at hmark
        next hdelimiter =>
          have hs₁ : c :: (w ++ r₁) = ([c] ++ w) ++ r₁ := rfl
          rw [strAt_add hs₁ 1, strAt_add hs₁ 2, ← Nat.add_zero ([c] ++ w).length, strAt_add hs₁ 0] at hdelimiter
          obtain ⟨r₂, rfl⟩ := exists_of_delimiter hdelimiter
          have hs₂ : c :: (w ++ ([charColon, charSlash, charSlash] ++ r₂))
              = ([c] ++ w ++ [charColon, charSlash, charSlash]) ++ r₂ := by simp
          have hbehind : ([c] ++ w ++ [charColon, charSlash, charSlash]).length = ([c] ++ w).length + 3 :=
            List.length_append
          rw [← hbehind] at hmark
          have hnul₂ : charNul ∉ r₂ := fun hmem => hnul (by simp [hmem])
          obtain ⟨u, hscheme, rfl, hu⟩ := exists_authority hs₂ hnul₂ ⟨c, w, rfl, halpha, hw⟩ hmark
          refine ⟨u, ?_, hu⟩
          rw [Parts.text, hscheme]
          rfl
        · contradiction

end WorkflowModel.Util.URIParser
