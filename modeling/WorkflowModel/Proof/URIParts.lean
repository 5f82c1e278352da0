import Mathlib.Tactic.IntervalCases
import WorkflowModel.Proof.URICut

/-!
# The components of a URI

`Parts` are the components with their delimiters, as in scheme://[userinfo@]host[:port][/path][?query][#fragment]. A
host can also be in brackets, and a delimiter can be there with nothing behind it. A string whose components are
marked is composed of parts, with each delimiter at the first place where it can be, and the marks are the ones
of these parts.
-/

namespace WorkflowModel.Util.URIParser

structure Parts where
  scheme : Bytes
  userinfo : Option Bytes
  host : Bytes
  bracketed : Bool
  port : Option Bytes
  path : Option Bytes
  query : Option Bytes
  fragment : Option Bytes

namespace Parts

def hostText (u : Parts) : Bytes := if u.bracketed then charOpen :: (u.host ++ [charClose]) else u.host

def tail (u : Parts) : Bytes :=
  u.port.elim [] (charColon :: ·) ++ (u.path.elim [] (charSlash :: ·) ++ (u.query.elim [] (charQuestion :: ·)
    ++ u.fragment.elim [] (charHash :: ·)))

/-- What follows `://`. -/
def authority (u : Parts) : Bytes := u.userinfo.elim [] (· ++ [charAt]) ++ (u.hostText ++ u.tail)

def text (u : Parts) : Bytes := u.scheme ++ ([charColon, charSlash, charSlash] ++ u.authority)

/-- The components in the order of the source. -/
def component (u : Parts) : Nat → Bytes
  | 0 => u.scheme
  | 1 => u.userinfo.getD []
  | 2 => u.host
  | 3 => u.port.getD []
  | 4 => u.path.elim [] (charSlash :: ·)
  | 5 => u.query.getD []
  | 6 => u.fragment.getD []
  | _ => []

def pieces (u : Parts) : List (Nat × Bytes) :=
  (u.port.map (0, ·)).toList ++ ((u.path.map (1, ·)).toList ++ ((u.query.map (2, ·)).toList
    ++ ((u.fragment.map (3, ·)).toList ++ [])))

/-- The delimiters are the first ones of their kind, so that the text has these components and no others. -/
structure Delimited (u : Parts) : Prop where
  scheme : ∃ c rest, u.scheme = c :: rest ∧ isAlpha c = true ∧ ∀ d ∈ rest, validChar 0 d = true
  userinfo : ∀ w, u.userinfo = some w → charAt ∉ w
  noUserinfo : u.userinfo = none → charAt ∉ u.hostText ++ u.tail
  host : u.bracketed = false → (∀ c ∈ u.host, c ∉ sep) ∧ u.host.head? ≠ some charOpen
  bracketed : u.bracketed = true → charClose ∉ u.host
  pieces : Pieces 0 u.pieces

theorem flat_pieces (u : Parts) : flat u.pieces = u.tail := by
  rcases u with ⟨_, _, _, _, _ | port, _ | path, _ | query, _ | fragment⟩ <;> simp [pieces, tail, flat, sep]

theorem textOf_pieces (u : Parts) {i : Nat} (hi : 3 ≤ i) (hi' : i < 7) : textOf u.pieces i = u.component i := by
  rcases u with ⟨_, _, _, _, _ | port, _ | path, _ | query, _ | fragment⟩ <;> interval_cases i <;> rfl

end Parts

variable {s a r : Bytes} {marks : Marks} {last : Nat} {u : Parts}

theorem headD_flat {ps : List (Nat × Bytes)} {idx : Nat} (h : Pieces idx ps) :
    (flat ps).headD charNul = charNul ∨ (flat ps).headD charNul ∈ sep := by
  cases h with
  | nil => exact Or.inl rfl
  | @cons _ k t ps _ hk _ _ =>
      right
      have hlt : k < sep.length := hk
      rw [flat_cons, List.headD_cons, List.getD_eq_getElem?_getD, List.getElem?_eq_getElem hlt, Option.getD_some]
      exact List.getElem_mem hlt

theorem markHost_plain (hfree : ∀ c ∈ u.host, c ∉ sep) (hhead : u.host.head? ≠ some charOpen)
    (hps : Pieces 0 u.pieces) (hs : s = a ++ (u.host ++ flat u.pieces))
    (hempty : ∀ i, 2 ≤ i → marks.ed i = marks.st i) :
    ∃ m, markHost s marks last a.length = some m ∧ m.Has s 2 u.host
      ∧ (∀ i, 3 ≤ i → m.Has s i (textOf u.pieces i)) ∧ ∀ i t, i < 2 → (m.Has s i t ↔ marks.Has s i t) := by
  have hopen : strAt s a.length ≠ charOpen := by
    rw [strAt_length hs]
    cases hhost : u.host with
    | nil =>
        rw [List.nil_append]
        rcases headD_flat hps with h | h
        · rw [h]
          decide
        · intro hc
          rw [hc] at h
          exact absurd h (by decide)
    | cons c rest =>
        intro hc
        rw [hhost] at hhead
        exact hhead (congrArg some hc)
  obtain ⟨x, hx⟩ : ∃ x : Cut, x = { cur := a.length, last := a.length, idx := 0, isIpv6 := false, marks := marks } :=
    ⟨_, rfl⟩
  have hdrop : s.drop x.cur = u.host ++ flat u.pieces := by
    rw [hx, hs, List.drop_left]
  have hfold : u.host.foldl Cut.round x = { x with cur := x.cur + u.host.length } := by
    apply foldl_round_of_free
    rw [hx]
    exact hfree
  have hcut : cutRest s x = ((flat u.pieces).foldl Cut.round { x with cur := x.cur + u.host.length }).finish := by
    rw [cutRest, hdrop, List.foldl_append, hfold]
  have hs' : s = a ++ u.host ++ flat u.pieces := by
    rw [hs, List.append_assoc]
  obtain ⟨hhost, hlater, hbefore⟩ := cut_pieces (x := { x with cur := x.cur + u.host.length }) hps
    (by rw [hx]) hs' (by rw [hx]) (by rw [hx, List.length_append]) (by rw [hx]) (by rw [hx]; exact hempty)
  refine ⟨cutRest s x, ?_, ?_, ?_, ?_⟩
  · rw [markHost, if_neg hopen, hx]
  · rw [hcut]
    exact hhost
  · rw [hcut]
    exact fun i hi => hlater i hi
  · rw [hcut]
    intro i t hi
    rw [hbefore i t hi, hx]

theorem markHost_bracketed (hclose : charClose ∉ u.host) (hps : Pieces 0 u.pieces)
    (hs : s = a ++ (charOpen :: (u.host ++ [charClose]) ++ flat u.pieces))
    (hempty : ∀ i, 2 ≤ i → marks.ed i = marks.st i) :
    ∃ m, markHost s marks last a.length = some m ∧ m.Has s 2 u.host
      ∧ (∀ i, 3 ≤ i → m.Has s i (textOf u.pieces i)) ∧ ∀ i t, i < 2 → (m.Has s i t ↔ marks.Has s i t) := by
  have hopen : strAt s a.length = charOpen := by
    rw [strAt_length hs]
    rfl
  have hs' : s = (a ++ [charOpen]) ++ u.host ++ (charClose :: flat u.pieces) := by
    simp [hs]
  have hs'' : s = (a ++ [charOpen] ++ u.host ++ [charClose]) ++ flat u.pieces := by
    simp [hs]
  have hskip : skipWhile (· != charClose) s (a.length + 1) = (a ++ [charOpen] ++ u.host).length := by
    have hlength : a.length + 1 = (a ++ [charOpen]).length := by simp
    rw [hlength]
    refine skipWhile_eq hs' ?_ ?_
    · intro c hc
      rw [bne_iff_ne]
      rintro rfl
      exact hclose hc
    · intro c hc
      rw [← Option.some.inj hc]
      decide
  have hat : strAt s (a ++ [charOpen] ++ u.host).length = charClose := by
    rw [strAt_length hs']
    rfl
  have hnext : (a ++ [charOpen] ++ u.host).length + 1 = (a ++ [charOpen] ++ u.host ++ [charClose]).length := by
    simp only [List.length_append, List.length_singleton]
  have hend : ¬ (strAt s ((a ++ [charOpen] ++ u.host).length + 1) ≠ charNul
      ∧ strAt s ((a ++ [charOpen] ++ u.host).length + 1) ∉ sep) := by
    rw [hnext, strAt_length hs'']
    rintro ⟨hnul, hsep⟩
    exact (headD_flat hps).elim hnul hsep
  obtain ⟨x, hx⟩ : ∃ x : Cut, x =
      { cur := (a ++ [charOpen] ++ u.host).length + 1, last := last, idx := 0, isIpv6 := true,
        marks := marks.set 2 (a.length + 1) (a ++ [charOpen] ++ u.host).length } := ⟨_, rfl⟩
  have hcut : cutRest s x = ((flat u.pieces).foldl Cut.round x).finish := by
    rw [cutRest]
    congr 2
    rw [hx, hnext]
    conv_lhs => rw [hs'', List.drop_left]
  obtain ⟨hlater, hbefore⟩ := cut_bracket (x := x) hps (by rw [hx]) hs'' (by rw [hx, hnext]) (by rw [hx]) (by
    intro i hi
    rw [hx]
    simp only [Marks.set]
    rw [Function.update_of_ne (by omega), Function.update_of_ne (by omega)]
    exact hempty i (by omega))
  refine ⟨cutRest s x, ?_, ?_, ?_, ?_⟩
  · rw [markHost, if_pos hopen, hskip]
    simp only
    rw [if_neg (not_not.mpr hat), if_neg hend, hx]
  · rw [hcut, hbefore 2 _ (by omega), hx]
    have hset := Marks.has_set_self (m := marks) (i := 2) hs'
    rwa [List.length_append, List.length_singleton] at hset
  · rw [hcut]
    exact hlater
  · rw [hcut]
    intro i t hi
    rw [hbefore i t (by omega), hx]
    exact Marks.has_set_of_ne (by omega) _ _

theorem markHost_text (h : u.Delimited) (marks : Marks) (last : Nat) (hs : s = a ++ (u.hostText ++ u.tail))
    (hempty : ∀ i, 2 ≤ i → marks.ed i = marks.st i) :
    ∃ m, markHost s marks last a.length = some m ∧ (∀ i, 2 ≤ i → i < 7 → m.Has s i (u.component i))
      ∧ ∀ i t, i < 2 → (m.Has s i t ↔ marks.Has s i t) := by
  have hmark : ∃ m, markHost s marks last a.length = some m ∧ m.Has s 2 u.host
      ∧ (∀ i, 3 ≤ i → m.Has s i (textOf u.pieces i)) ∧ ∀ i t, i < 2 → (m.Has s i t ↔ marks.Has s i t) := by
    rw [← u.flat_pieces, Parts.hostText] at hs
    cases hbracketed : u.bracketed with
    | false =>
        rw [hbracketed] at hs
        exact markHost_plain (h.host hbracketed).1 (h.host hbracketed).2 h.pieces hs hempty
    | true =>
        rw [hbracketed] at hs
        exact markHost_bracketed (h.bracketed hbracketed) h.pieces hs hempty
  obtain ⟨m, hm, hhost, hlater, hbefore⟩ := hmark
  refine ⟨m, hm, ?_, hbefore⟩
  intro i hi hi'
  rcases Nat.eq_or_lt_of_le hi with rfl | hlt
  · exact hhost
  · rw [← u.textOf_pieces hlt hi']
    exact hlater i hlt

theorem markAuthority_text (h : u.Delimited) (marks : Marks) (hs : s = a ++ u.authority)
    (hempty : ∀ i, 1 ≤ i → marks.ed i = marks.st i) :
    ∃ m, markAuthority s marks a.length = some m ∧ (∀ i, 1 ≤ i → i < 7 → m.Has s i (u.component i))
      ∧ ∀ t, m.Has s 0 t ↔ marks.Has s 0 t := by
  cases huser : u.userinfo with
  | none =>
      rw [Parts.authority, huser] at hs
      have hnot := h.noUserinfo huser
      have hskip : skipWhile (· != charAt) s a.length = s.length := by
        have hs' : s = a ++ (u.hostText ++ u.tail) ++ [] := by rw [hs]; simp
        rw [skipWhile_eq hs' _ (by simp), hs', List.append_nil]
        intro c hc
        rw [bne_iff_ne]
        rintro rfl
        exact hnot hc
      obtain ⟨m, hm, hlater, hbefore⟩ := markHost_text h marks a.length hs fun i hi => hempty i (by omega)
      refine ⟨m, ?_, ?_, fun t => hbefore 0 t (by omega)⟩
      · rw [markAuthority, hskip, if_neg (Nat.lt_irrefl _)]
        exact hm
      · intro i hi hi'
        rcases Nat.eq_or_lt_of_le hi with rfl | hlt
        · rw [hbefore 1 _ (by omega), Parts.component, huser]
          exact Marks.has_nil (hempty 1 (Nat.le_refl 1))
        · exact hlater i hlt hi'
  | some w =>
      have hw := h.userinfo w huser
      rw [Parts.authority, huser] at hs
      have hs' : s = a ++ w ++ (charAt :: (u.hostText ++ u.tail)) := by
        rw [hs]
        simp
      have hs'' : s = (a ++ w ++ [charAt]) ++ (u.hostText ++ u.tail) := by
        rw [hs]
        simp
      have hskip : skipWhile (· != charAt) s a.length = (a ++ w).length := by
        refine skipWhile_eq hs' ?_ ?_
        · intro c hc
          rw [bne_iff_ne]
          rintro rfl
          exact hw hc
        · intro c hc
          rw [← Option.some.inj hc]
          decide
      have hlt : (a ++ w).length < s.length := by
        have hlength := congrArg List.length hs'
        rw [List.length_append, List.length_cons] at hlength
        omega
      obtain ⟨m, hm, hlater, hbefore⟩ := markHost_text h (marks.set 1 a.length (a ++ w).length)
        a.length hs'' (by
          intro i hi
          simp only [Marks.set]
          rw [Function.update_of_ne (by omega), Function.update_of_ne (by omega)]
          exact hempty i (by omega))
      refine ⟨m, ?_, ?_, ?_⟩
      · rw [markAuthority, hskip, if_pos hlt]
        have hnext : (a ++ w ++ [charAt]).length = (a ++ w).length + 1 := List.length_append
        rwa [hnext] at hm
      · intro i hi hi'
        rcases Nat.eq_or_lt_of_le hi with rfl | hlt
        · rw [hbefore 1 _ (by omega), Parts.component, huser]
          exact Marks.has_set_self hs'
        · exact hlater i hlt hi'
      · intro t
        rw [hbefore 0 t (by omega)]
        exact Marks.has_set_of_ne (by omega) _ _

/-- The marks of composed parts are those of the parts. -/
theorem mark_text (h : u.Delimited) : ∃ m, mark u.text = some m ∧ ∀ i < 7, m.Has u.text i (u.component i) := by
  obtain ⟨c, rest, hscheme, hc, hrest⟩ := h.scheme
  have hs : u.text = [c] ++ rest ++ (charColon :: charSlash :: charSlash :: u.authority) := by
    rw [Parts.text, hscheme]
    rfl
  have hs' : u.text = (u.scheme ++ [charColon, charSlash, charSlash]) ++ u.authority := by
    rw [Parts.text, List.append_assoc]
  have hlength : ([c] ++ rest).length = u.scheme.length := by rw [hscheme]; rfl
  have hskip : skipWhile (validChar 0) u.text 1 = u.scheme.length := by
    rw [← hlength]
    refine skipWhile_eq (a := [c]) hs hrest ?_
    intro d hd
    rw [← Option.some.inj hd]
    decide
  have hfirst : strAt u.text 0 = c := by
    rw [hs]
    rfl
  have hdelimiter : strAt u.text u.scheme.length = charColon ∧ strAt u.text (u.scheme.length + 1) = charSlash
      ∧ strAt u.text (u.scheme.length + 2) = charSlash := by
    refine ⟨?_, ?_, ?_⟩
    · rw [← hlength, strAt_length hs]
      rfl
    · have hnext : u.text = (u.scheme ++ [charColon]) ++ (charSlash :: charSlash :: u.authority) := by
        simp [Parts.text]
      have := strAt_length hnext
      rwa [List.length_append, List.length_singleton] at this
    · have hnext : u.text = (u.scheme ++ [charColon, charSlash]) ++ (charSlash :: u.authority) := by
        simp [Parts.text]
      have := strAt_length hnext
      rwa [List.length_append] at this
  obtain ⟨m, hm, hlater, hbefore⟩ := markAuthority_text h (Marks.zero.set 0 0 u.scheme.length) hs' (by
    intro i hi
    simp only [Marks.set, Marks.zero]
    rw [Function.update_of_ne (by omega), Function.update_of_ne (by omega)])
  refine ⟨m, ?_, ?_⟩
  · rw [mark, hfirst, if_neg, hskip]
    · simp only
      rw [if_pos hdelimiter]
      rwa [List.length_append] at hm
    · rintro (hnul | halpha)
      · rw [hnul] at hc
        exact absurd hc (by decide)
      · rw [hc] at halpha
        contradiction
  · intro i hi
    rcases Nat.eq_zero_or_pos i with rfl | hpos
    · rw [hbefore]
      exact Marks.has_set_self (a := []) rfl
    · exact hlater i hpos hi

end WorkflowModel.Util.URIParser
