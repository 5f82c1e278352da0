import WorkflowModel.Http.Parser

/-!
# The scanners of the HTTP parser

Each scanner is characterised by the shape of the bytes it accepts. From the shapes follow the two
facts that the resumption argument needs: a verdict other than "need more" is settled by the bytes it
was reached on, and a scanner that had asked for more ends behind the bytes it had been shown.
-/

namespace WorkflowModel.Http

open WorkflowModel

theorem exists_append_of_append_eq {l tail : Bytes} (front rest : Bytes)
    (h : l ++ tail = front ++ rest) (hlen : front.length ≤ l.length) :
    ∃ middle, l = front ++ middle ∧ rest = middle ++ tail := by
  rcases List.append_eq_append_iff.mp h with ⟨middle, hfront, htail⟩ | ⟨middle, hl, hrest⟩
  · have hnil : middle = [] := by
      apply List.eq_nil_of_length_eq_zero
      have := congrArg List.length hfront
      simp only [List.length_append] at this
      omega
    subst hnil
    exact ⟨[], by simpa using hfront.symm, by simpa using htail.symm⟩
  · exact ⟨middle, hl, hrest⟩

theorem scanLine_eq_line_iff {max : Nat} {refuseNul : Bool} {line : Bytes} :
    ∀ {l content : Bytes}, content.length ≤ max →
      (scanLine max refuseNul content l = .line line ↔
        ∃ body rest, l = body ++ charCr :: charLf :: rest ∧ line = content ++ body ∧
          line.length < max ∧ charCr ∉ body ∧ (refuseNul → charNul ∉ body)) := by
  intro l
  induction l with
  | nil =>
      intro content _
      simp only [scanLine]
      constructor
      · intro h
        split_ifs at h
      · rintro ⟨body, rest, hl, _⟩
        simp at hl
  | cons c tail ih =>
      intro content hcontent
      simp only [scanLine]
      by_cases hmax : content.length = max
      · simp only [hmax, ↓reduceIte, reduceCtorEq, false_iff]
        rintro ⟨body, rest, -, hline, hlt, -⟩
        rw [hline, List.length_append] at hlt
        omega
      by_cases hcr : c = charCr
      · subst hcr
        simp only [hmax, ↓reduceIte]
        constructor
        · intro h
          match tail, h with
          | d :: rest, h =>
              simp only at h
              split_ifs at h with hlf
              simp only [LineScan.line.injEq] at h
              refine ⟨[], rest, by simp [not_not.mp hlf], by simp [h], ?_, by simp, by simp⟩
              rw [← h]
              omega
        · rintro ⟨body, rest, hl, hline, hlt, hnot, -⟩
          cases body with
          | nil =>
              simp only [List.nil_append, List.cons.injEq, true_and] at hl
              simp [hl, hline]
          | cons b body =>
              simp only [List.cons_append, List.cons.injEq] at hl
              simp [hl.1] at hnot
      by_cases hnul : (refuseNul && c == charNul) = true
      · simp only [hmax, hcr, hnul, ↓reduceIte, reduceCtorEq, false_iff]
        rintro ⟨body, rest, hl, -, -, -, hnot⟩
        simp only [Bool.and_eq_true, beq_iff_eq] at hnul
        cases body with
        | nil => simp [hcr] at hl
        | cons b body =>
            simp only [List.cons_append, List.cons.injEq] at hl
            simp [← hl.1, hnul] at hnot
      · rw [if_neg hmax, if_neg hcr, if_neg hnul, ih (by simp; omega)]
        simp only [Bool.and_eq_true, beq_iff_eq, not_and] at hnul
        constructor
        · rintro ⟨body, rest, hl, hline, hlt, hnot, hnotNul⟩
          refine ⟨c :: body, rest, by simp [hl], by simp [hline], hlt, ?_, ?_⟩
          · simp [hnot, Ne.symm hcr]
          · intro hrefuse
            simp [hnotNul hrefuse, Ne.symm (hnul hrefuse)]
        · rintro ⟨body, rest, hl, hline, hlt, hnot, hnotNul⟩
          cases body with
          | nil => simp [hcr] at hl
          | cons b body =>
              simp only [List.cons_append, List.cons.injEq] at hl
              obtain ⟨rfl, hl⟩ := hl
              simp only [List.mem_cons, not_or] at hnot hnotNul
              exact ⟨body, rest, hl, by simp [hline], hlt, hnot.2, fun hrefuse => (hnotNul hrefuse).2⟩

theorem scanLine_append {max : Nat} {refuseNul : Bool} (tail : Bytes) :
    ∀ {l content : Bytes}, scanLine max refuseNul content l ≠ .more →
      scanLine max refuseNul content (l ++ tail) = scanLine max refuseNul content l := by
  intro l
  induction l with
  | nil =>
      intro content h
      have hlen : content.length = max := by
        by_contra hne
        simp [scanLine, hne] at h
      cases tail <;> simp [scanLine, hlen]
  | cons c rest ih =>
      intro content h
      simp only [List.cons_append, scanLine] at h ⊢
      split_ifs at h ⊢ with hmax hcr hnul
      · rfl
      · cases rest with
        | nil => simp at h
        | cons d others => simp
      · rfl
      · exact ih h

theorem length_of_scanLine {max : Nat} {refuseNul : Bool} {line l : Bytes}
    (h : scanLine max refuseNul [] l = .line line) : line.length + 2 ≤ l.length := by
  obtain ⟨body, rest, rfl, rfl, -⟩ := (scanLine_eq_line_iff (by simp)).mp h
  simp

theorem length_lt_of_scanLine_more {max : Nat} {refuseNul : Bool} {line l tail : Bytes}
    (hmore : scanLine max refuseNul [] l = .more)
    (h : scanLine max refuseNul [] (l ++ tail) = .line line) : l.length < line.length + 2 := by
  by_contra hle
  obtain ⟨body, rest, hl, hline, hlt, hcr, hnul⟩ := (scanLine_eq_line_iff (by simp)).mp h
  obtain ⟨middle, hmiddle, -⟩ := exists_append_of_append_eq
    (body ++ [charCr, charLf]) rest (by simpa using hl)
    (by simp only [hline] at hle; simp at hle ⊢; omega)
  have hline' : scanLine max refuseNul [] l = .line line := by
    rw [scanLine_eq_line_iff (by simp)]
    exact ⟨body, middle, by simpa using hmiddle, hline, hlt, hcr, hnul⟩
  simp [hmore] at hline'

theorem span_of_notMem {part : Bytes} (h : charSpace ∉ part) : part.span (· != charSpace) = (part, []) := by
  have hall : ∀ c ∈ part, (c != charSpace) = true := by
    intro c hc
    rw [bne_iff_ne]
    rintro rfl
    exact h hc
  rw [List.span_eq_takeWhile_dropWhile, List.takeWhile_eq_self_iff.mpr hall, List.dropWhile_eq_nil_iff.mpr hall]

theorem span_of_cut {part : Bytes} (rest : Bytes) (h : charSpace ∉ part) :
    (part ++ charSpace :: rest).span (· != charSpace) = (part, charSpace :: rest) := by
  have hall : ∀ c ∈ part, (c != charSpace) = true := by
    intro c hc
    rw [bne_iff_ne]
    rintro rfl
    exact h hc
  rw [List.span_eq_takeWhile_dropWhile, List.takeWhile_append_of_pos hall, List.dropWhile_append_of_pos hall]
  simp

theorem startsWithCrlf_append {l : Bytes} (tail : Bytes) (h : 2 ≤ l.length) :
    startsWithCrlf (l ++ tail) = startsWithCrlf l := by
  match l, h with
  | c :: d :: rest, _ => simp [startsWithCrlf]

theorem length_of_startsWithCrlf {l : Bytes} (h : startsWithCrlf l = true) : 2 ≤ l.length := by
  match l, h with
  | c :: d :: rest, _ => simp

theorem startsWithCrlf_append_of_ne {c : UInt8} {l : Bytes} (tail : Bytes) (hc : c ≠ charCr) :
    startsWithCrlf (c :: l ++ tail) = startsWithCrlf (c :: l) := by
  cases l with
  | nil => cases tail <;> simp [startsWithCrlf, hc]
  | cons d rest => simp [startsWithCrlf]

/-- The name ends at the first colon; the buffer then holds it as a C string. -/
theorem nameLoop_eq_one (rest : Bytes) :
    ∀ (body : Bytes) (i : Nat) (namebuf : Vector UInt8 httpHeaderNameMax),
      i + body.length < httpHeaderNameMax → charColon ∉ body → charNul ∉ body →
      (∀ c ∈ namebuf.toList.take i, c ≠ charNul) →
      ∃ written, nameLoop namebuf i (body ++ charColon :: rest) = (1, written, i + body.length) ∧
        cString written.toList = namebuf.toList.take i ++ body := by
  intro body
  induction body with
  | nil =>
      intro i namebuf hlt _ _ hclean
      simp only [List.length_nil, Nat.add_zero] at hlt
      refine ⟨namebuf.setIfInBounds i charNul, by simp [nameLoop, Nat.ne_of_lt hlt], ?_⟩
      have hset : (namebuf.setIfInBounds i charNul).toList
          = namebuf.toList.take i ++ charNul :: namebuf.toList.drop (i + 1) := by
        rw [Vector.toList_setIfInBounds, List.set_eq_take_append_cons_drop,
          if_pos (by simpa using hlt)]
      rw [hset, cString, List.takeWhile_append_of_pos (by simpa using hclean)]
      simp
  | cons c body ih =>
      intro i namebuf hlt hcolon hnul hclean
      simp only [List.length_cons] at hlt
      simp only [List.mem_cons, not_or] at hcolon hnul
      have htake : (namebuf.setIfInBounds i c).toList.take (i + 1) = namebuf.toList.take i ++ [c] := by
        have hlen : (namebuf.toList.take i).length = i := by simp; omega
        rw [Vector.toList_setIfInBounds, List.set_eq_take_append_cons_drop,
          if_pos (by simp; omega), List.take_append, hlen, List.take_of_length_le (by omega)]
        simp
      obtain ⟨written, hloop, hstring⟩ := ih (i + 1) (namebuf.setIfInBounds i c)
        (by omega) hcolon.2 hnul.2 (by
          rw [htake]
          simp only [List.mem_append, List.mem_singleton]
          rintro b (hb | rfl)
          · exact hclean b hb
          · exact Ne.symm hnul.1)
      refine ⟨written, ?_, by rw [hstring, htake]; simp⟩
      rw [List.cons_append, nameLoop, if_neg (by omega), if_neg (Ne.symm hcolon.1),
        if_neg (Ne.symm hnul.1), hloop]
      simp; omega

theorem exists_name_of_nameLoop :
    ∀ {l : Bytes} {i : Nat} {namebuf : Vector UInt8 httpHeaderNameMax}, i ≤ httpHeaderNameMax →
      (nameLoop namebuf i l).1 = 1 →
      ∃ body rest, l = body ++ charColon :: rest ∧ i + body.length < httpHeaderNameMax ∧
        charColon ∉ body ∧ charNul ∉ body := by
  intro l
  induction l with
  | nil =>
      intro i namebuf _ h
      simp only [nameLoop] at h
      split_ifs at h
      omega
  | cons c rest ih =>
      intro i namebuf hi h
      simp only [nameLoop] at h
      split_ifs at h with hmax hcolon hnul
      · simp at h
      · exact ⟨[], rest, by simp [hcolon], by simp; omega, by simp, by simp⟩
      · simp at h
      · obtain ⟨body, rest, rfl, hlt, hnotColon, hnotNul⟩ := ih (by omega) h
        exact ⟨c :: body, rest, by simp, by simp; omega, by simp [hnotColon, Ne.symm hcolon],
          by simp [hnotNul, Ne.symm hnul]⟩

theorem nameLoop_fst_eq (namebuf namebuf' : Vector UInt8 httpHeaderNameMax) :
    ∀ {l : Bytes} {i : Nat}, (nameLoop namebuf i l).1 = (nameLoop namebuf' i l).1 := by
  intro l
  induction l generalizing namebuf namebuf' with
  | nil => intro i; simp [nameLoop]
  | cons c rest ih =>
      intro i
      simp only [nameLoop]
      split_ifs
      · rfl
      · rfl
      · rfl
      · exact ih _ _

theorem nameLoop_append (tail : Bytes) :
    ∀ {l : Bytes} {i : Nat} {namebuf : Vector UInt8 httpHeaderNameMax},
      (nameLoop namebuf i l).1 ≠ 0 → nameLoop namebuf i (l ++ tail) = nameLoop namebuf i l := by
  intro l
  induction l with
  | nil =>
      intro i namebuf h
      have hi : i = httpHeaderNameMax := by
        by_contra hne
        simp [nameLoop, hne] at h
      cases tail <;> simp [nameLoop, hi]
  | cons c rest ih =>
      intro i namebuf h
      simp only [List.cons_append, nameLoop] at h ⊢
      split_ifs at h ⊢
      · rfl
      · rfl
      · rfl
      · exact ih h

theorem length_lt_of_nameLoop_zero {l tail body rest : Bytes}
    {namebuf : Vector UInt8 httpHeaderNameMax} (hmore : (nameLoop namebuf 0 l).1 = 0)
    (h : l ++ tail = body ++ charColon :: rest) (hlt : body.length < httpHeaderNameMax)
    (hcolon : charColon ∉ body) (hnul : charNul ∉ body) : l.length < body.length + 1 := by
  by_contra hle
  obtain ⟨middle, rfl, -⟩ := exists_append_of_append_eq (body ++ [charColon]) rest
    (by simpa using h) (by simp; omega)
  obtain ⟨written, hloop, -⟩ := nameLoop_eq_one middle body 0 namebuf
    (by simpa using hlt) hcolon hnul (by simp)
  simp [hloop] at hmore

theorem copyValue_eq_line_iff {content rest : Bytes} :
    ∀ {l value : Bytes}, value.length ≤ httpHeaderValueMax →
      (copyValue value l = (.line content, rest) ↔
        ∃ body, l = body ++ charCr :: rest ∧ rest ≠ [] ∧ content = value ++ body ∧
          content.length < httpHeaderValueMax ∧ charCr ∉ body ∧ charNul ∉ body) := by
  intro l
  induction l with
  | nil =>
      intro value _
      simp [copyValue]
  | cons c tail ih =>
      intro value hvalue
      simp only [copyValue]
      by_cases hmax : value.length = httpHeaderValueMax
      · simp only [hmax, ↓reduceIte, Prod.mk.injEq, reduceCtorEq, false_and, false_iff]
        rintro ⟨body, -, -, hcontent, hlt, -⟩
        rw [hcontent, List.length_append] at hlt
        omega
      by_cases htail : tail = []
      · simp only [hmax, htail, ↓reduceIte, Prod.mk.injEq, reduceCtorEq, false_and, false_iff]
        rintro ⟨body, hl, hrest, -⟩
        have hlen := congrArg List.length hl
        have hpos : 0 < rest.length := List.length_pos_iff.mpr hrest
        simp only [List.length_cons, List.length_nil, List.length_append] at hlen
        omega
      by_cases hcr : c = charCr
      · subst hcr
        simp only [hmax, htail, ↓reduceIte, Prod.mk.injEq, LineScan.line.injEq]
        constructor
        · rintro ⟨rfl, rfl⟩
          exact ⟨[], by simp, htail, by simp, by omega, by simp, by simp⟩
        · rintro ⟨body, hl, -, hcontent, -, hnot, -⟩
          cases body with
          | nil => simpa [hcontent] using hl
          | cons b body =>
              simp only [List.cons_append, List.cons.injEq] at hl
              simp [hl.1] at hnot
      by_cases hnul : c = charNul
      · rw [if_neg hmax, if_neg htail, if_neg hcr, if_pos hnul]
        simp only [Prod.mk.injEq, reduceCtorEq, false_and, false_iff]
        rintro ⟨body, hl, -, -, -, -, hnot⟩
        cases body with
        | nil => simp [hcr] at hl
        | cons b body =>
            simp only [List.cons_append, List.cons.injEq] at hl
            simp [← hl.1, hnul] at hnot
      · rw [if_neg hmax, if_neg htail, if_neg hcr, if_neg hnul, ih (by simp; omega)]
        constructor
        · rintro ⟨body, hl, hrest, hcontent, hlt, hnot, hnotNul⟩
          exact ⟨c :: body, by simp [hl], hrest, by simp [hcontent], hlt,
            by simp [hnot, Ne.symm hcr], by simp [hnotNul, Ne.symm hnul]⟩
        · rintro ⟨body, hl, hrest, hcontent, hlt, hnot, hnotNul⟩
          cases body with
          | nil => simp [hcr] at hl
          | cons b body =>
              simp only [List.cons_append, List.cons.injEq] at hl
              obtain ⟨rfl, hl⟩ := hl
              simp only [List.mem_cons, not_or] at hnot hnotNul
              exact ⟨body, hl, hrest, by simp [hcontent], hlt, hnot.2, hnotNul.2⟩

theorem copyValue_append_of_bad (tail : Bytes) :
    ∀ (l value : Bytes), (copyValue value l).1 = .bad → (copyValue value (l ++ tail)).1 = .bad := by
  intro l
  induction l with
  | nil =>
      intro value h
      simp [copyValue] at h
  | cons c rest ih =>
      intro value h
      simp only [List.cons_append, copyValue] at h ⊢
      split_ifs at h with hmax hrest hcr hnul
      · rw [if_pos hmax]
      · rw [if_neg hmax, if_neg (by simp [hrest]), if_neg hcr, if_pos hnul]
      · rw [if_neg hmax, if_neg (by simp [hrest]), if_neg hcr, if_neg hnul]
        exact ih _ h

theorem isPrefix_trimRight (value : Bytes) : trimRight value <+: value := by
  rw [← List.reverse_suffix, trimRight, List.reverse_reverse]
  exact List.dropWhile_suffix isBlank

/-- The shape of a header value: blanks, the text, CRLF and at least one byte more. -/
theorem valueRound_eq_value_iff {content rest l : Bytes} :
    valueRound [] l = .value content rest ↔
      ∃ blanks body, l = blanks ++ (body ++ charCr :: charLf :: rest) ∧ rest ≠ [] ∧
        (∀ c ∈ blanks, isBlank c) ∧ ¬ body.head?.any isBlank ∧ content = trimRight body ∧
        body.length < httpHeaderValueMax ∧ charCr ∉ body ∧ charNul ∉ body := by
  have hsplit := List.takeWhile_append_dropWhile (p := isBlank) (l := l)
  constructor
  · intro h
    simp only [valueRound] at h
    split at h
    · simp at h
    · rename_i first others hdrop
      split at h
      · simp at h
      · simp at h
      · simp at h
      · rename_i content' d rest' hcopy
        rw [copyValue_eq_line_iff (by simp [httpHeaderValueMax])] at hcopy
        obtain ⟨body, hl, -, hbody, hlt, hcr, hnul⟩ := hcopy
        simp only [List.nil_append] at hbody
        subst hbody
        split_ifs at h with hlf
        split at h
        · simp at h
        · rename_i e tail
          split_ifs at h with hcont
          simp only [ValueRound.value.injEq] at h
          obtain ⟨rfl, rfl⟩ := h
          refine ⟨l.takeWhile isBlank, content', ?_, by simp, ?_, ?_, rfl, hlt, hcr, hnul⟩
          · rw [← not_not.mp hlf, ← hl, ← hdrop]
            exact hsplit.symm
          · intro c hc
            exact List.all_eq_true.mp List.all_takeWhile c hc
          · have hfirst : ¬ isBlank first := by
              have := List.head?_dropWhile_not isBlank l
              rw [hdrop] at this
              simpa using this
            cases content' with
            | nil => simp
            | cons b body =>
                simp only [List.cons_append, List.cons.injEq] at hl
                simpa [← hl.1] using hfirst
  · rintro ⟨blanks, body, rfl, hrest, hblanks, hhead, rfl, hlt, hcr, hnul⟩
    have hdrop : (blanks ++ (body ++ charCr :: charLf :: rest)).dropWhile isBlank
        = body ++ charCr :: charLf :: rest := by
      rw [List.dropWhile_append_of_pos hblanks]
      cases body with
      | nil => rfl
      | cons b body =>
          simp only [List.head?_cons, Option.any_some] at hhead
          simp [hhead]
    obtain ⟨first, others, hfirst⟩ : ∃ first others,
        body ++ charCr :: charLf :: rest = first :: others := by
      cases body <;> simp
    have hcopy : copyValue [] (first :: others) = (.line body, charLf :: rest) := by
      rw [copyValue_eq_line_iff (by simp [httpHeaderValueMax])]
      exact ⟨body, hfirst.symm, by simp, by simp, hlt, hcr, hnul⟩
    obtain ⟨e, tail, rfl⟩ := List.exists_cons_of_ne_nil hrest
    rw [hfirst] at hdrop
    rw [valueRound, hfirst, hdrop]
    simp only [hcopy]
    have hcont : e ≠ charSpace ∨ e ≠ charTab := by
      by_contra hboth
      simp only [not_or, not_not] at hboth
      rw [hboth.1] at hboth
      exact absurd hboth.2 (by decide)
    simp [hcont]

theorem valueRound_ne_folded {value l content rest : Bytes} :
    valueRound value l ≠ .folded content rest := by
  intro h
  simp only [valueRound] at h
  split at h
  · simp at h
  · split at h
    · simp at h
    · simp at h
    · simp at h
    · split_ifs at h
      split at h
      · simp at h
      · rename_i e tail
        split_ifs at h with hcont
        simp only [not_or, not_not] at hcont
        rw [hcont.1] at hcont
        exact absurd hcont.2 (by decide)

theorem valueLoop_eq_valueRound (fuel : Nat) (value l : Bytes) :
    valueLoop (fuel + 1) value l = valueRound value l := by
  rw [valueLoop]
  split
  · rename_i content rest h
    exact absurd h valueRound_ne_folded
  · rfl

theorem valueRound_append_of_value {l content rest : Bytes} (tail : Bytes)
    (h : valueRound [] l = .value content rest) :
    valueRound [] (l ++ tail) = .value content (rest ++ tail) := by
  rw [valueRound_eq_value_iff] at h ⊢
  obtain ⟨blanks, body, rfl, hrest, hshape⟩ := h
  exact ⟨blanks, body, by simp, by simp [hrest], hshape⟩

theorem valueRound_append_of_bad {l : Bytes} (tail : Bytes) (h : valueRound [] l = .bad) :
    valueRound [] (l ++ tail) = .bad := by
  simp only [valueRound] at h ⊢
  split at h
  · simp at h
  · rename_i first others hdrop
    have hdrop' : (l ++ tail).dropWhile isBlank = first :: (others ++ tail) := by
      rw [List.dropWhile_append, hdrop]
      simp
    rw [hdrop']
    simp only
    split at h
    · simp at h
    · rename_i hcopy
      have hbad := copyValue_append_of_bad tail (first :: others) [] (by rw [hcopy])
      rw [List.cons_append] at hbad
      split <;> simp_all
    · simp at h
    · rename_i content d rest hcopy
      have hcopy' : copyValue [] (first :: (others ++ tail)) = (.line content, d :: (rest ++ tail)) := by
        rw [copyValue_eq_line_iff (by simp [httpHeaderValueMax])] at hcopy ⊢
        obtain ⟨body, hl, -, hbody⟩ := hcopy
        exact ⟨body, by rw [← List.cons_append, hl]; simp, by simp, hbody⟩
      simp only [hcopy']
      split_ifs at h ⊢ with hlf
      · rfl
      · split at h
        · simp at h
        · split_ifs at h

theorem length_le_of_valueRound_more {l tail content rest : Bytes}
    (hmore : valueRound [] l = .more)
    (h : valueRound [] (l ++ tail) = .value content rest) : rest.length ≤ tail.length := by
  by_contra hlt
  obtain ⟨blanks, body, hl, hrest, hshape⟩ := valueRound_eq_value_iff.mp h
  obtain ⟨middle, hmiddle, hmiddle'⟩ := exists_append_of_append_eq
    (blanks ++ (body ++ [charCr, charLf])) rest (by simpa using hl) (by
      have := congrArg List.length hl
      simp only [List.length_append, List.length_cons] at this
      simp
      omega)
  have hne : middle ≠ [] := by
    rintro rfl
    simp [hmiddle'] at hlt
  have hvalue : valueRound [] l = .value content middle := by
    rw [valueRound_eq_value_iff]
    exact ⟨blanks, body, by simpa using hmiddle, hne, hshape⟩
  simp [hmore] at hvalue

theorem length_lt_of_valueRound {l content rest : Bytes} (h : valueRound [] l = .value content rest) :
    rest.length + 2 ≤ l.length := by
  obtain ⟨blanks, body, rfl, -⟩ := valueRound_eq_value_iff.mp h
  simp
  omega

end WorkflowModel.Http
