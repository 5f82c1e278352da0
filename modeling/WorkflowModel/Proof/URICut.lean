import WorkflowModel.Util.URIParser

/-!
# The loop over the separators

The string behind the host is a sequence of pieces, each a separator with the text up to the next one. The separators
of a piece come later in `sep` than the one before, and its text has none of those that come later still. The loop
gives each piece its component, and leaves the components in between empty.
-/

namespace WorkflowModel.Util.URIParser

variable {s a w r t : Bytes} {m : Marks} {x : Cut} {i j k idx : Nat} {ps : List (Nat × Bytes)}

def Marks.Has (m : Marks) (s : Bytes) (i : Nat) (t : Bytes) : Prop :=
  m.text s i = t ∧ m.ed i - m.st i = t.length

theorem Marks.has_set_self (hs : s = a ++ t ++ r) : (m.set i a.length (a ++ t).length).Has s i t := by
  simp [Marks.Has, Marks.text, Marks.set, hs]

theorem Marks.has_set_of_ne (h : j ≠ i) (st ed : Nat) : (m.set i st ed).Has s j t ↔ m.Has s j t := by
  simp only [Marks.Has, Marks.text, Marks.set, Function.update_of_ne h]

theorem Marks.has_nil (h : m.ed i = m.st i) : m.Has s i [] := by
  simp [Marks.Has, Marks.text, h]

theorem skipWhile_eq {p : UInt8 → Bool} (hs : s = a ++ w ++ r) (hw : ∀ c ∈ w, p c = true)
    (hr : ∀ c, r.head? = some c → p c = false) : skipWhile p s a.length = (a ++ w).length := by
  have hstop : r.takeWhile p = [] := by
    cases r with
    | nil => rfl
    | cons c r => rw [List.takeWhile_cons_of_neg (by simp [hr c rfl])]
  rw [skipWhile, hs, List.append_assoc, List.drop_left, List.takeWhile_append_of_pos hw, hstop, List.append_nil,
    List.length_append]

theorem strAt_length (hs : s = a ++ r) : strAt s a.length = r.headD charNul := by
  rw [strAt, hs, List.getD_eq_getElem?_getD, List.getElem?_append_right (Nat.le_refl _), Nat.sub_self]
  cases r <;> rfl

theorem sepIndex_eq_none {c : UInt8} (h : c ∉ sep.drop idx) : sepIndex idx c = none := by
  rw [sepIndex, List.find?_eq_none]
  intro i hi hsep
  rw [Bool.and_eq_true, decide_eq_true_eq, beq_iff_eq] at hsep
  obtain ⟨hle, hc⟩ := hsep
  apply h
  have hlt : i < sep.length := List.mem_range.mp hi
  rw [List.getD_eq_getElem?_getD, List.getElem?_eq_getElem hlt, Option.getD_some] at hc
  rw [List.mem_drop_iff_getElem]
  exact ⟨i - idx, by omega, by simp only [Nat.add_sub_cancel' hle, hc]⟩

theorem sepIndex_sep (hk : k < 4) (h : idx ≤ k) : sepIndex idx (sep.getD k charNul) = some k := by
  have hall : ∀ k < 4, ∀ idx ≤ k, sepIndex idx (sep.getD k charNul) = some k := by decide
  exact hall k hk idx h

theorem sep_eq_slash_iff (hk : k < 4) : sep.getD k charNul = charSlash ↔ k = 1 := by
  have hall : ∀ k < 4, sep.getD k charNul = charSlash ↔ k = 1 := by decide
  exact hall k hk

theorem foldl_round_of_free (h : ∀ c ∈ w, c ∉ sep.drop x.idx) :
    w.foldl Cut.round x = { x with cur := x.cur + w.length } := by
  induction w generalizing x with
  | nil => rfl
  | cons c w ih =>
      have hround : x.round c = { x with cur := x.cur + 1 } := by
        rw [Cut.round, sepIndex_eq_none (h c List.mem_cons_self)]
      have hrest := ih (x := { x with cur := x.cur + 1 }) fun d hd => h d (List.mem_cons_of_mem c hd)
      rw [List.foldl_cons, hround]
      refine hrest.trans ?_
      simp only [List.length_cons, Nat.add_assoc, Nat.add_comm 1]

theorem round_sep (hk : k < 4) (h : x.idx ≤ k) :
    x.round (sep.getD k charNul) = { x.close k with cur := x.cur + 1 } := by
  rw [Cut.round, sepIndex_sep hk h]
  rfl

/-- Pieces with separators from the index on: the index of each separator, and the text behind it. -/
inductive Pieces : Nat → List (Nat × Bytes) → Prop where
  | nil {idx : Nat} : Pieces idx []
  | cons {idx k : Nat} {t : Bytes} {ps : List (Nat × Bytes)} : idx ≤ k → k < 4 → (∀ c ∈ t, c ∉ sep.drop (k + 1)) →
      Pieces (k + 1) ps → Pieces idx ((k, t) :: ps)

def flat (ps : List (Nat × Bytes)) : Bytes := ps.flatMap fun p => sep.getD p.1 charNul :: p.2

def kept (k : Nat) (t : Bytes) : Bytes := if k = 1 then charSlash :: t else t

def textOf (ps : List (Nat × Bytes)) (i : Nat) : Bytes :=
  match ps.find? fun p => p.1 + 3 == i with
  | some (k, t) => kept k t
  | none => []

theorem flat_cons (k : Nat) (t : Bytes) (ps : List (Nat × Bytes)) :
    flat ((k, t) :: ps) = sep.getD k charNul :: (t ++ flat ps) := by
  simp [flat]

theorem Pieces.le_of_mem (h : Pieces idx ps) {p : Nat × Bytes} (hp : p ∈ ps) : idx ≤ p.1 := by
  induction h with
  | nil => simp at hp
  | cons hle _ _ _ ih =>
      rcases List.mem_cons.mp hp with rfl | hp
      · exact hle
      · exact Nat.le_trans hle (Nat.le_of_succ_le (ih hp))

theorem Pieces.mono (h : Pieces idx ps) (hle : j ≤ idx) : Pieces j ps := by
  cases h with
  | nil => exact .nil
  | cons hk hlt hfree hps => exact .cons (Nat.le_trans hle hk) hlt hfree hps

theorem Pieces.textOf_of_lt (h : Pieces idx ps) (hi : i < idx + 3) : textOf ps i = [] := by
  have hnone : (ps.find? fun p => p.1 + 3 == i) = none := by
    rw [List.find?_eq_none]
    intro p hp heq
    have := h.le_of_mem hp
    rw [beq_iff_eq] at heq
    omega
  rw [textOf, hnone]

theorem textOf_cons_self (k : Nat) (t : Bytes) (ps : List (Nat × Bytes)) :
    textOf ((k, t) :: ps) (k + 3) = kept k t := by
  rw [textOf, List.find?_cons_of_pos (by simp)]

theorem textOf_cons_of_ne (h : i ≠ k + 3) : textOf ((k, t) :: ps) i = textOf ps i := by
  rw [textOf, List.find?_cons_of_neg (by simpa using Ne.symm h), textOf]

theorem Pieces.has_textOf_cons (h : Pieces (k + 1) ps) (hopen : m.Has s (k + 3) (kept k t))
    (hlater : ∀ i, k + 3 < i → m.Has s i (textOf ps i)) (hempty : ∀ i, j ≤ i → i < k + 3 → m.Has s i []) :
    ∀ i, j ≤ i → m.Has s i (textOf ((k, t) :: ps) i) := by
  intro i hi
  rcases Nat.lt_trichotomy i (k + 3) with hlt | rfl | hgt
  · rw [textOf_cons_of_ne (by omega), h.textOf_of_lt (by omega)]
    exact hempty i hi hlt
  · rw [textOf_cons_self]
    exact hopen
  · rw [textOf_cons_of_ne (by omega)]
    exact hlater i hgt

theorem foldl_piece (hk : k < 4) (h : x.idx ≤ k) (hfree : ∀ c ∈ t, c ∉ sep.drop (k + 1)) :
    (sep.getD k charNul :: t).foldl Cut.round x = { x.close k with cur := x.cur + 1 + t.length } := by
  rw [List.foldl_cons, round_sep hk h, foldl_round_of_free hfree]

/-- Where the component of a piece begins, its separator is part of it or it is not. -/
theorem exists_start (hk : k < 4) (hs : s = a ++ sep.getD k charNul :: (t ++ r)) (hcur : x.cur = a.length) :
    ∃ b, s = b ++ kept k t ++ r ∧ (x.close k).last = b.length ∧ x.cur + 1 + t.length = (b ++ kept k t).length := by
  by_cases hslash : k = 1
  · subst hslash
    refine ⟨a, ?_, ?_, ?_⟩
    · rw [hs]
      simp [kept, sep]
    · rw [Cut.close, if_pos ((sep_eq_slash_iff hk).mpr rfl), hcur]
    · simp only [kept, if_true, List.length_append, List.length_cons]
      omega
  · refine ⟨a ++ [sep.getD k charNul], ?_, ?_, ?_⟩
    · rw [hs]
      simp [kept, hslash]
    · rw [Cut.close, if_neg (mt (sep_eq_slash_iff hk).mp hslash), hcur, List.length_append, List.length_singleton]
    · simp only [kept, hslash, if_false, List.length_append, List.length_singleton]
      omega

/-- The loop from a place where the text `t` of an open component has been read. -/
theorem cut_pieces (h : Pieces idx ps) (hidx : x.idx = idx) (hs : s = a ++ t ++ flat ps) (hlast : x.last = a.length)
    (hcur : x.cur = (a ++ t).length) (hipv6 : x.isIpv6 = false)
    (hempty : ∀ i, idx + 2 ≤ i → x.marks.ed i = x.marks.st i) :
    ((flat ps).foldl Cut.round x).finish.Has s (idx + 2) t
      ∧ (∀ i, idx + 2 < i → ((flat ps).foldl Cut.round x).finish.Has s i (textOf ps i))
      ∧ ∀ i u, i < idx + 2 → (((flat ps).foldl Cut.round x).finish.Has s i u ↔ x.marks.Has s i u) := by
  induction h generalizing x a t with
  | @nil idx =>
      have hfold : (flat []).foldl Cut.round x = x := rfl
      rw [hfold, Cut.finish]
      by_cases ht : t = []
      · subst ht
        rw [List.append_nil] at hcur
        rw [if_neg (by omega)]
        refine ⟨Marks.has_nil (hempty _ (Nat.le_refl _)), ?_, fun _ _ _ => Iff.rfl⟩
        intro i hi
        exact Marks.has_nil (hempty i (Nat.le_of_lt hi))
      · have hpos : x.cur > x.last := by
          have := List.length_pos_iff.mpr ht
          rw [hcur, hlast, List.length_append]
          omega
        rw [if_pos ⟨hpos, hipv6⟩, hidx, hlast, hcur]
        refine ⟨Marks.has_set_self hs, ?_, ?_⟩
        · intro i hi
          rw [Marks.has_set_of_ne (by omega)]
          exact Marks.has_nil (hempty i (Nat.le_of_lt hi))
        · intro i u hi
          exact Marks.has_set_of_ne (by omega) _ _
  | @cons idx k u ps hle hk hfree hps ih =>
      rw [flat_cons] at hs ⊢
      obtain ⟨b, hb, hstart, hend⟩ := exists_start (a := a ++ t) hk hs hcur
      obtain ⟨y, hy⟩ : ∃ y : Cut, y = { x.close k with cur := x.cur + 1 + u.length } := ⟨_, rfl⟩
      have hfold : (sep.getD k charNul :: (u ++ flat ps)).foldl Cut.round x = (flat ps).foldl Cut.round y := by
        rw [hy, ← foldl_piece hk (by omega) hfree, ← List.foldl_append, List.cons_append]
      have hmarks : y.marks = x.marks.set (idx + 2) a.length (a ++ t).length := by
        rw [hy]
        simp only [Cut.close, hipv6, hidx, hlast, hcur, Bool.false_eq_true, if_false]
      have hstays : ∀ i, k + 1 + 2 ≤ i → y.marks.ed i = y.marks.st i := by
        intro i hi
        rw [hmarks, Marks.set]
        simp only
        rw [Function.update_of_ne (by omega), Function.update_of_ne (by omega)]
        exact hempty i (by omega)
      obtain ⟨hopen, hlater, hbefore⟩ := ih (x := y) (by rw [hy]; rfl) hb (by rw [hy]; exact hstart)
        (by rw [hy]; exact hend) (by rw [hy]; rfl) hstays
      rw [hfold]
      rw [hmarks] at hbefore
      refine ⟨?_, ?_, ?_⟩
      · rw [hbefore _ _ (by omega)]
        exact Marks.has_set_self hs
      · apply hps.has_textOf_cons hopen hlater
        intro i hi hlt
        rw [hbefore i [] (by omega), Marks.has_set_of_ne (by omega)]
        exact Marks.has_nil (hempty i (by omega))
      · intro i v hi
        rw [hbefore i v (by omega)]
        exact Marks.has_set_of_ne (by omega) _ _

/-- The loop from behind a host in brackets: the first separator closes no component. -/
theorem cut_bracket (h : Pieces 0 ps) (hidx : x.idx = 0) (hs : s = a ++ flat ps) (hcur : x.cur = a.length)
    (hipv6 : x.isIpv6 = true) (hempty : ∀ i, 3 ≤ i → x.marks.ed i = x.marks.st i) :
    (∀ i, 3 ≤ i → ((flat ps).foldl Cut.round x).finish.Has s i (textOf ps i))
      ∧ ∀ i u, i < 3 → (((flat ps).foldl Cut.round x).finish.Has s i u ↔ x.marks.Has s i u) := by
  cases h with
  | nil =>
      have hfinish : ((flat []).foldl Cut.round x).finish = x.marks := by
        change x.finish = x.marks
        rw [Cut.finish, if_neg (by simp [hipv6])]
      rw [hfinish]
      refine ⟨fun i hi => ?_, fun _ _ _ => Iff.rfl⟩
      exact Marks.has_nil (hempty i hi)
  | @cons _ k u ps hle hk hfree hps =>
      rw [flat_cons] at hs ⊢
      obtain ⟨b, hb, hstart, hend⟩ := exists_start hk hs hcur
      obtain ⟨y, hy⟩ : ∃ y : Cut, y = { x.close k with cur := x.cur + 1 + u.length } := ⟨_, rfl⟩
      have hfold : (sep.getD k charNul :: (u ++ flat ps)).foldl Cut.round x = (flat ps).foldl Cut.round y := by
        rw [hy, ← foldl_piece hk (by omega) hfree, ← List.foldl_append, List.cons_append]
      have hmarks : y.marks = x.marks := by
        rw [hy]
        simp only [Cut.close, hipv6, if_true]
      obtain ⟨hopen, hlater, hbefore⟩ := cut_pieces (x := y) hps (by rw [hy]; rfl) hb (by rw [hy]; exact hstart)
        (by rw [hy]; exact hend) (by rw [hy]; rfl) (by
          intro i hi
          rw [hmarks]
          exact hempty i (by omega))
      rw [hfold]
      rw [hmarks] at hbefore
      refine ⟨?_, ?_⟩
      · apply hps.has_textOf_cons hopen hlater
        intro i hi hlt
        rw [hbefore i [] (by omega)]
        exact Marks.has_nil (hempty i hi)
      · intro i v hi
        exact hbefore i v (by omega)

theorem exists_pieces (idx : Nat) (r : Bytes) :
    ∃ t ps, r = t ++ flat ps ∧ (∀ c ∈ t, c ∉ sep.drop idx) ∧ Pieces idx ps := by
  induction r generalizing idx with
  | nil => exact ⟨[], [], rfl, by simp, .nil⟩
  | cons c r ih =>
      by_cases hc : c ∈ sep.drop idx
      · obtain ⟨i, hi, hsep⟩ := List.mem_drop_iff_getElem.mp hc
        have hlt : idx + i < sep.length := by
          rw [Nat.add_comm]
          exact hi
        have hget : sep.getD (idx + i) charNul = c := by
          rw [List.getD_eq_getElem?_getD, List.getElem?_eq_getElem hlt, Option.getD_some]
          exact hsep
        obtain ⟨t, ps, rfl, hfree, hps⟩ := ih (idx + i + 1)
        refine ⟨[], (idx + i, t) :: ps, ?_, by simp, .cons (by omega) hlt hfree hps⟩
        rw [flat_cons, hget]
        rfl
      · obtain ⟨t, ps, rfl, hfree, hps⟩ := ih idx
        refine ⟨c :: t, ps, rfl, ?_, hps⟩
        intro d hd
        rcases List.mem_cons.mp hd with rfl | hd
        · exact hc
        · exact hfree d hd

theorem Pieces.split (h : Pieces k ps) (hk : k < 4) :
    ∃ o : Option Bytes, ∃ ps', ps = (o.map (k, ·)).toList ++ ps' ∧ (∀ t, o = some t → ∀ c ∈ t, c ∉ sep.drop (k + 1))
      ∧ Pieces (k + 1) ps' := by
  cases h with
  | nil => exact ⟨none, [], rfl, by simp, .nil⟩
  | @cons _ j t ps hle hlt hfree hps =>
      by_cases hj : j = k
      · subst hj
        refine ⟨some t, ps, rfl, ?_, hps⟩
        intro u hu
        rwa [← Option.some.inj hu]
      · exact ⟨none, (j, t) :: ps, rfl, by simp, .cons (by omega) hlt hfree hps⟩

theorem Pieces.join {o : Option Bytes} (h : Pieces (k + 1) ps) (hk : k < 4)
    (hfree : ∀ t, o = some t → ∀ c ∈ t, c ∉ sep.drop (k + 1)) : Pieces k ((o.map (k, ·)).toList ++ ps) := by
  cases o with
  | none => exact h.mono (Nat.le_succ k)
  | some t => exact .cons (Nat.le_refl k) hk (hfree t rfl) h

end WorkflowModel.Util.URIParser
