import WorkflowModel.Http.ParserAccess
import WorkflowModel.Proof.HttpScan
import WorkflowModel.Proof.Strtol
import Mathlib.Data.List.Induction

/-!
# The accesses of the parser are in bounds

Each sub-parser reads only what lies between its offset and the end of the message, and writes its arrays only
where they are. So the parser with its accesses always has a result, and it is the one of the parser on lists.
-/

namespace WorkflowModel.Http

open WorkflowModel

variable {message rest content : Bytes} {ptr len i p : Nat} {c : UInt8} {parser : HttpParser}

theorem getElem?_of_drop {n : Nat} (h : message.drop n = c :: rest) : message[n]? = some c := by
  have hget : (message.drop n)[0]? = message[n + 0]? := List.getElem?_drop
  rw [h] at hget
  exact hget.symm

theorem drop_succ_of_drop {n : Nat} (h : message.drop n = c :: rest) : message.drop (n + 1) = rest := by
  rw [← List.drop_drop, h]
  rfl

theorem startsWithCrlf_access (h : message.drop ptr = rest) :
    Access.startsWithCrlf message ptr rest.length = some (startsWithCrlf rest) := by
  match rest, h with
  | [], _ => rfl
  | [c], _ => rfl
  | c :: d :: tail, h =>
      have hd : message[ptr + 1]? = some d := getElem?_of_drop (drop_succ_of_drop h)
      have hlen : 2 ≤ (c :: d :: tail).length := by simp
      rw [Access.startsWithCrlf, if_pos hlen, getElem?_of_drop h]
      simp only [Option.bind_eq_bind, Option.bind_some, hd, startsWithCrlf]
      by_cases hc : c = charCr <;> simp [hc]

section Line

variable {β : Type} {store : Nat → UInt8 → β → Option β} {Stored : Bytes → β → Prop} {array : β} {max : Nat}
  {refuseNul : Bool}

/-- The loop over a line ends as the scan does. -/
def LineAgrees (Stored : Bytes → β → Prop) (max : Nat) : Access.LineEnd β → LineScan → Prop
  | .ran i, scan => scan = if i = max then .bad else .more
  | .more, scan => scan = .more
  | .bad, scan => scan = .bad
  | .line i array, scan => ∃ content, scan = .line content ∧ content.length = i ∧ i < max
      ∧ Stored (content ++ [charCr]) array

/-- The loop over a line stays in the message and, if `store` can take bytes up to the bound of the line, in
the array. -/
theorem lineLoop_access (content : Bytes)
    (hstore : ∀ content array c, Stored content array → content.length < max →
      ∃ array', store content.length c array = some array' ∧ Stored (content ++ [c]) array')
    (h : message.drop (ptr + content.length) = rest) (hlen : len = content.length + rest.length)
    (hmax : content.length ≤ max) (harray : Stored content array) :
    ∃ e, Access.lineLoop store refuseNul message ptr len (min max len - content.length) content.length array = some e
      ∧ LineAgrees Stored max e (scanLine max refuseNul content rest) := by
  induction rest generalizing content array with
  | nil =>
      have hrounds : min max len - content.length = 0 := by
        rw [hlen]
        simp
      rw [hrounds]
      exact ⟨_, rfl, rfl⟩
  | cons c rest ih =>
      rw [List.length_cons] at hlen
      by_cases hfull : content.length = max
      · have hrounds : min max len - content.length = 0 := by omega
        rw [hrounds]
        refine ⟨_, rfl, ?_⟩
        simp only [LineAgrees, scanLine, hfull, if_true]
      · obtain ⟨rounds, hrounds⟩ : ∃ k, min max len - content.length = k + 1 :=
          ⟨min max len - content.length - 1, by omega⟩
        obtain ⟨array', hstored, harray'⟩ := hstore content array c harray (by omega)
        have hrest : message.drop (ptr + content.length + 1) = rest := drop_succ_of_drop h
        rw [hrounds, Access.lineLoop, getElem?_of_drop h]
        simp only [Option.bind_eq_bind, Option.bind_some, hstored, scanLine, if_neg hfull]
        by_cases hcr : c = charCr
        · subst hcr
          simp only [if_true]
          cases rest with
          | nil =>
              have hlast : content.length = len - 1 := by simp at hlen; omega
              rw [if_pos hlast]
              exact ⟨_, rfl, rfl⟩
          | cons d tail =>
              have hlast : content.length ≠ len - 1 := by simp at hlen; omega
              rw [if_neg hlast, getElem?_of_drop hrest]
              simp only [Option.bind_some]
              by_cases hlf : d = charLf
              · rw [if_neg (not_not.mpr hlf), if_neg (not_not.mpr hlf)]
                exact ⟨_, rfl, content, rfl, rfl, by omega, harray'⟩
              · rw [if_pos hlf, if_pos hlf]
                exact ⟨_, rfl, rfl⟩
        · simp only [if_neg hcr]
          by_cases hnul : (refuseNul && c == charNul) = true
          · rw [if_pos hnul, if_pos hnul]
            exact ⟨_, rfl, rfl⟩
          · rw [if_neg hnul, if_neg hnul]
            have hnext : ∃ e, Access.lineLoop store refuseNul message ptr len (min max len - (content ++ [c]).length)
                (content ++ [c]).length array' = some e
                ∧ LineAgrees Stored max e (scanLine max refuseNul (content ++ [c]) rest) :=
              ih _ (by rw [List.length_append]; exact hrest) (by simp; omega) (by simp; omega) harray'
            rw [List.length_append, List.length_singleton] at hnext
            rwa [show rounds = min max len - (content.length + 1) by omega]

end Line

def Copied (size : Nat) (text : Bytes) (array : Block UInt8) : Prop := array.Holds text ∧ array.length = size

theorem storeByte_copied {size : Nat} {array : Block UInt8} (h : Copied size content array)
    (hsize : content.length < size) (c : UInt8) :
    ∃ array', Access.storeByte content.length c array = some array' ∧ Copied size (content ++ [c]) array' := by
  obtain ⟨hholds, hlength⟩ := h
  obtain ⟨array', hwrite, hholds', hlength', -⟩ := hholds.write [c] (by rw [hlength]; exact hsize)
  exact ⟨array', hwrite, hholds', hlength'.trans hlength⟩

theorem copyLine_access (size : Nat) (refuseNul : Bool) (h : message.drop ptr = rest) :
    ∃ e, Access.lineLoop Access.storeByte refuseNul message ptr rest.length (min size rest.length) 0 (Block.alloc size)
        = some e ∧ LineAgrees (Copied size) size e (scanLine size refuseNul [] rest) :=
  lineLoop_access [] (fun content array c harray hsize => storeByte_copied harray hsize c) h
    (by simp) (Nat.zero_le _) ⟨Block.holds_nil _, Block.length_alloc _⟩

theorem Copied.terminate {size : Nat} {array : Block UInt8} (h : Copied size (content ++ [charCr]) array) :
    ∃ array', array.write content.length [charNul] = some array' ∧ Copied size (content ++ [charNul]) array' := by
  obtain ⟨array', hwrite, hholds, hlength⟩ := h.1.set charNul
  exact ⟨array', hwrite, hholds, hlength.trans h.2⟩

theorem splitStartLine_access {size : Nat} {line : Block UInt8} (h : Copied size (content ++ [charNul]) line)
    (hnul : charNul ∉ content) : Access.splitStartLine line = some (splitStartLine content) := by
  obtain ⟨hholds, hlength⟩ := h
  have hsize : content.length < line.length := by
    have := hholds.length_le
    simp at this
    omega
  by_cases hspace : charSpace ∈ content
  · obtain ⟨p1, rest, rfl, hp1⟩ := List.eq_append_cons_of_mem hspace
    simp only [List.mem_append, List.mem_cons, not_or] at hnul
    obtain ⟨hnul1, -, hnulrest⟩ := hnul
    have hcut : line.Holds (p1 ++ charSpace :: (rest ++ [charNul])) := by simpa using hholds
    have hp1size : p1.length + rest.length + 1 < line.length := by simpa [Nat.add_assoc] using hsize
    have hfound : line.strchrFrom charSpace line.length 0 = some (some p1.length) :=
      Block.strchrFrom_found [] (rest ++ [charNul]) hcut hp1 hnul1 (by omega)
    obtain ⟨line₁, hwrite₁, hholds₁, hlength₁⟩ := hcut.set charNul
    simp only [Access.splitStartLine, hfound, Option.bind_eq_bind, Option.bind_some, hwrite₁, hlength₁]
    rw [splitStartLine, span_of_cut _ hp1]
    by_cases hspace' : charSpace ∈ rest
    · obtain ⟨p2, p3, rfl, hp2⟩ := List.eq_append_cons_of_mem hspace'
      simp only [List.mem_append, List.mem_cons, not_or] at hnulrest
      obtain ⟨hnul2, -, hnul3⟩ := hnulrest
      have hcut₁ : line₁.Holds ((p1 ++ [charNul] ++ p2) ++ charSpace :: (p3 ++ [charNul])) := by simpa using hholds₁
      have hfound' : line₁.strchrFrom charSpace line.length (p1.length + 1) = some (some (p1 ++ [charNul] ++ p2).length) := by
        have := Block.strchrFrom_found (p1 ++ [charNul]) (p3 ++ [charNul]) hcut₁ hp2 hnul2
          (show p2.length < line.length by simp at hp1size; omega)
        simpa using this
      obtain ⟨line₂, hwrite₂, hholds₂, hlength₂⟩ := hcut₁.set charNul
      have hstring : ∀ (front s back : Bytes), line₂.Holds (front ++ s ++ charNul :: back) → charNul ∉ s →
          s.length < line.length → line₂.stringFrom line.length front.length = some s := by
        intro front s back hs hnot hlt
        rw [Block.stringFrom_spec front back hs hlt, cString_of_not_mem hnot]
      have hp1' := hstring [] p1 (p2 ++ charNul :: (p3 ++ [charNul])) (by simpa using hholds₂) hnul1 (by omega)
      have hp2' := hstring (p1 ++ [charNul]) p2 (p3 ++ [charNul]) (by simpa using hholds₂) hnul2
        (by simp at hp1size; omega)
      have hp3' := hstring (p1 ++ [charNul] ++ p2 ++ [charNul]) p3 [] (by simpa using hholds₂) hnul3
        (by simp at hp1size; omega)
      simp only [List.length_append, List.length_nil, List.length_singleton] at hp1' hp2' hp3' hfound' hwrite₂
      simp only [hfound', Option.bind_some, hwrite₂, hlength₂, hlength₁, hp1', hp2', hp3', span_of_cut _ hp2]
    · have hmissing : line₁.strchrFrom charSpace line.length (p1.length + 1) = some none := by
        have := Block.strchrFrom_missing (p1 ++ [charNul]) [] (by simpa using hholds₁) hspace' hnulrest (by decide)
          (show rest.length < line.length by omega)
        simpa using this
      simp only [hmissing, Option.bind_some, span_of_notMem hspace']
  · rw [splitStartLine, span_of_notMem hspace]
    have hmissing : line.strchrFrom charSpace line.length 0 = some none :=
      Block.strchrFrom_missing [] [] (by simpa using hholds) hspace hnul (by decide) hsize
    simp only [Access.splitStartLine, hmissing, Option.bind_eq_bind, Option.bind_some]

theorem parseStartLine_access (h : message.drop ptr = rest) :
    Access.parseStartLine message ptr rest.length parser = some (parseStartLine rest parser) := by
  obtain ⟨e, he, hagrees⟩ := copyLine_access httpStartLineMax true h
  simp only [Access.parseStartLine, startsWithCrlf_access h, Option.bind_eq_bind, Option.bind_some, he]
  cases hcrlf : startsWithCrlf rest with
  | true => simp only [parseStartLine, hcrlf, if_true]
  | false =>
      simp only [parseStartLine, hcrlf, Bool.false_eq_true, if_false]
      cases e with
      | ran i =>
          rw [show scanLine httpStartLineMax true [] rest = _ from hagrees]
          by_cases hi : i = httpStartLineMax
          · simp only [if_pos hi]
          · simp only [if_neg hi]
      | more => rw [show scanLine httpStartLineMax true [] rest = _ from hagrees]
      | bad => rw [show scanLine httpStartLineMax true [] rest = _ from hagrees]
      | line i line =>
          obtain ⟨content, hscan, rfl, -, hcopied⟩ := hagrees
          obtain ⟨line', hwrite, hcopied'⟩ := hcopied.terminate
          have hnul : charNul ∉ content := by
            obtain ⟨body, _, -, rfl, -, -, hnot⟩ := (scanLine_eq_line_iff (Nat.zero_le _)).mp hscan
            exact hnot rfl
          rw [hscan]
          simp only [hwrite, Option.bind_some, splitStartLine_access hcopied' hnul]
          cases splitStartLine content with
          | none => rfl
          | some parts => rfl

theorem storeName_of_lt {namebuf : Vector UInt8 httpHeaderNameMax} (h : i < httpHeaderNameMax) (c : UInt8) :
    Access.storeName i c namebuf = some (namebuf.setIfInBounds i c) := if_pos h

/-- The loop over a name stays in the message and in `namebuf`. -/
theorem nameLoop_access {namebuf : Vector UInt8 httpHeaderNameMax} (h : message.drop (ptr + i) = rest)
    (hlen : len = i + rest.length) (hi : i ≤ httpHeaderNameMax) :
    Access.nameLoop message ptr (min httpHeaderNameMax len - i) i namebuf = some (nameLoop namebuf i rest) := by
  induction rest generalizing i namebuf with
  | nil =>
      have hrounds : min httpHeaderNameMax len - i = 0 := by
        rw [hlen]
        simp
      rw [hrounds]
      rfl
  | cons c rest ih =>
      rw [List.length_cons] at hlen
      by_cases hfull : i = httpHeaderNameMax
      · have hrounds : min httpHeaderNameMax len - i = 0 := by omega
        rw [hrounds]
        simp only [Access.nameLoop, nameLoop, hfull, if_true]
      · obtain ⟨rounds, hrounds⟩ : ∃ k, min httpHeaderNameMax len - i = k + 1 :=
          ⟨min httpHeaderNameMax len - i - 1, by omega⟩
        have hlt : i < httpHeaderNameMax := by omega
        have hnext : Access.nameLoop message ptr (min httpHeaderNameMax len - (i + 1)) (i + 1) (namebuf.setIfInBounds i c)
            = some (nameLoop (namebuf.setIfInBounds i c) (i + 1) rest) :=
          ih (drop_succ_of_drop h) (by omega) (by omega)
        rw [hrounds, Access.nameLoop, getElem?_of_drop h, nameLoop]
        simp only [Option.bind_eq_bind, Option.bind_some, if_neg hfull, storeName_of_lt hlt]
        rw [show rounds = min httpHeaderNameMax len - (i + 1) by omega, hnext]
        split_ifs <;> rfl

theorem parseHeaderName_access (h : message.drop ptr = rest) :
    Access.parseHeaderName message ptr rest.length parser = some (parseHeaderName rest parser) := by
  have hloop : Access.nameLoop message ptr (min httpHeaderNameMax rest.length) 0 parser.namebuf
      = some (nameLoop parser.namebuf 0 rest) :=
    nameLoop_access (by rwa [Nat.add_zero]) (Nat.zero_add _).symm (Nat.zero_le _)
  simp only [Access.parseHeaderName, startsWithCrlf_access h, Option.bind_eq_bind, Option.bind_some, hloop]
  cases hcrlf : startsWithCrlf rest with
  | true => simp only [parseHeaderName, hcrlf, if_true]
  | false =>
      simp only [parseHeaderName, hcrlf, Bool.false_eq_true, if_false]
      obtain ⟨ret, namebuf, i⟩ := nameLoop parser.namebuf 0 rest
      by_cases hret : ret = 1
      · subst hret
        rfl
      · split <;> simp_all

theorem skipBlanks_access {rounds : Nat} (h : message.drop (ptr + p) = rest) (hlen : len = p + rest.length)
    (hrounds : rest.length < rounds) : Access.skipBlanks message ptr len rounds p
      = some (if rest.dropWhile isBlank = [] then none else some (len - (rest.dropWhile isBlank).length)) := by
  induction rest generalizing p rounds with
  | nil =>
      obtain ⟨rounds, rfl⟩ : ∃ k, rounds = k + 1 := ⟨rounds - 1, by omega⟩
      simp only [List.length_nil, Nat.add_zero] at hlen
      rw [Access.skipBlanks, if_pos hlen.symm]
      rfl
  | cons c rest ih =>
      rw [List.length_cons] at hlen hrounds
      obtain ⟨rounds, rfl⟩ : ∃ k, rounds = k + 1 := ⟨rounds - 1, by omega⟩
      rw [Access.skipBlanks, if_neg (by omega), getElem?_of_drop h]
      simp only [Option.bind_eq_bind, Option.bind_some]
      by_cases hblank : isBlank c = true
      · rw [if_pos hblank, List.dropWhile_cons_of_pos hblank]
        exact ih (drop_succ_of_drop h) (by omega) (by omega)
      · rw [if_neg hblank, List.dropWhile_cons_of_neg hblank, if_neg (List.cons_ne_nil _ _), List.length_cons]
        congr 2
        omega

/-- The copying of a value ends as the one from list to list does, at the same place of the message. -/
def CopyAgrees (message : Bytes) (ptr len : Nat) : Access.CopyEnd → LineScan × Bytes → Prop
  | .more, result => result = (.more, [])
  | .bad, result => result = (.bad, [])
  | .line p i value, result => ∃ content rest, result = (.line content, rest) ∧ rest ≠ [] ∧ content.length = i
      ∧ i < httpHeaderValueMax ∧ message.drop (ptr + p) = rest ∧ len = p + rest.length
      ∧ Copied httpHeaderValueMax (content ++ [charCr]) value

theorem copyValue_access (rounds : Nat) {value : Block UInt8} (content : Bytes) (h : message.drop (ptr + p) = rest)
    (hne : rest ≠ []) (hlen : len = p + rest.length) (hrounds : rest.length < rounds)
    (hmax : content.length ≤ httpHeaderValueMax) (hvalue : Copied httpHeaderValueMax content value) :
    ∃ e, Access.copyValue message ptr len rounds p content.length value = some e
      ∧ CopyAgrees message ptr len e (copyValue content rest) := by
  induction rest generalizing p rounds content value with
  | nil => exact absurd rfl hne
  | cons c rest ih =>
      rw [List.length_cons] at hlen hrounds
      obtain ⟨rounds, rfl⟩ : ∃ k, rounds = k + 1 := ⟨rounds - 1, by omega⟩
      rw [Access.copyValue, copyValue]
      by_cases hfull : content.length = httpHeaderValueMax
      · rw [if_pos hfull, if_pos hfull]
        exact ⟨_, rfl, rfl⟩
      · obtain ⟨value', hstored, hvalue'⟩ := storeByte_copied hvalue (by omega) c
        have hwrite : value.write content.length [c] = some value' := hstored
        have hrest : message.drop (ptr + (p + 1)) = rest := drop_succ_of_drop h
        rw [if_neg hfull, if_neg hfull, getElem?_of_drop h]
        simp only [Option.bind_eq_bind, Option.bind_some, hwrite]
        by_cases hend : rest = []
        · have hlast : p + 1 = len := by
            rw [hend] at hlen
            simp at hlen
            omega
          rw [if_pos hlast, if_pos hend]
          exact ⟨_, rfl, rfl⟩
        · have hlast : p + 1 ≠ len := by
            have := List.length_pos_iff.mpr hend
            omega
          rw [if_neg hlast, if_neg hend]
          by_cases hcr : c = charCr
          · subst hcr
            rw [if_pos rfl, if_pos rfl]
            exact ⟨_, rfl, content, rest, rfl, hend, rfl, by omega, hrest, by omega, hvalue'⟩
          · rw [if_neg hcr, if_neg hcr]
            by_cases hnul : c = charNul
            · rw [if_pos hnul, if_pos hnul]
              exact ⟨_, rfl, rfl⟩
            · rw [if_neg hnul, if_neg hnul]
              have hnext := ih rounds (content ++ [c]) hrest hend (by omega) (by omega)
                (by simp; omega) hvalue'
              rwa [List.length_append] at hnext

theorem trimBlanks_access {value : Block UInt8} (back : Bytes) (h : value.Holds (content ++ back)) :
    Access.trimBlanks value content.length = some (trimRight content).length := by
  induction content using List.reverseRecOn generalizing back with
  | nil => rfl
  | append_singleton content c ih =>
      rw [List.append_assoc] at h
      have hcell : value.cell content.length = some c := h.cell
      rw [List.length_append, List.length_singleton, Access.trimBlanks, hcell]
      simp only [Option.bind_eq_bind, Option.bind_some]
      by_cases hblank : isBlank c = true
      · rw [if_pos hblank, ih (c :: back) h]
        simp [trimRight, hblank]
      · rw [if_neg hblank]
        simp [trimRight, hblank]

def ValueAgrees (len : Nat) : Access.ValueEnd → ValueRound → Prop
  | .more, round => round = .more
  | .bad, round => round = .bad
  | .value p i value, round => ∃ content rest, round = .value content rest ∧ content.length = i ∧ i < httpHeaderValueMax
      ∧ len = p + rest.length ∧ Copied httpHeaderValueMax content value

theorem valueLoop_access (h : message.drop ptr = rest) :
    ∃ e, Access.valueLoop message ptr rest.length (rest.length + 1) 0 0 (Block.alloc httpHeaderValueMax) = some e
      ∧ ValueAgrees rest.length e (valueRound [] rest) := by
  rw [Access.valueLoop, skipBlanks_access (p := 0) (by rwa [Nat.add_zero]) (Nat.zero_add _).symm (Nat.lt_succ_self _)]
  simp only [Option.bind_eq_bind, Option.bind_some, valueRound]
  have hsuffix := List.suffix_iff_eq_drop.mp (List.dropWhile_suffix isBlank (l := rest))
  have hle := (List.dropWhile_suffix isBlank (l := rest)).length_le
  cases hblanks : rest.dropWhile isBlank with
  | nil => exact ⟨_, rfl, rfl⟩
  | cons first others =>
      rw [hblanks] at hsuffix hle
      rw [if_neg (List.cons_ne_nil _ _)]
      have hfirst : message.drop (ptr + (rest.length - (first :: others).length)) = first :: others := by
        rw [← List.drop_drop, h]
        exact hsuffix.symm
      obtain ⟨e, he, hagrees⟩ := copyValue_access (rest.length + 1) [] hfirst (List.cons_ne_nil _ _)
        (show rest.length = rest.length - (first :: others).length + (first :: others).length by omega) (by omega)
        (Nat.zero_le _) ⟨Block.holds_nil _, Block.length_alloc _⟩
      simp only [List.length_nil] at he
      simp only [he, Option.bind_some]
      cases e with
      | more =>
          rw [show copyValue [] (first :: others) = _ from hagrees]
          exact ⟨_, rfl, rfl⟩
      | bad =>
          rw [show copyValue [] (first :: others) = _ from hagrees]
          exact ⟨_, rfl, rfl⟩
      | line p i value =>
          obtain ⟨content, after, hcopy, hne, rfl, hi, hafter, hlen, hcopied⟩ := hagrees
          rw [hcopy]
          cases after with
          | nil => exact absurd rfl hne
          | cons d tail =>
              simp only [getElem?_of_drop hafter, Option.bind_some]
              by_cases hlf : d = charLf
              · rw [if_neg (not_not.mpr hlf), if_neg (not_not.mpr hlf)]
                rw [List.length_cons] at hlen
                cases tail with
                | nil =>
                    rw [if_pos (by simpa using hlen.symm)]
                    exact ⟨_, rfl, rfl⟩
                | cons e others =>
                    rw [if_neg (by rw [List.length_cons] at hlen; omega)]
                    have he : message[ptr + (p + 1)]? = some e := getElem?_of_drop (drop_succ_of_drop hafter)
                    have hfold : e ≠ charSpace ∨ e ≠ charTab := by
                      by_contra hboth
                      simp only [not_or, not_not] at hboth
                      rw [hboth.1] at hboth
                      exact absurd hboth.2 (by decide)
                    simp only [trimBlanks_access [charCr] hcopied.1, Option.bind_some, he, if_pos hfold]
                    obtain ⟨behind, hbehind⟩ := isPrefix_trimRight content
                    have htrimmed : value.Holds (trimRight content ++ (behind ++ [charCr])) := by
                      rw [← List.append_assoc, hbehind]
                      exact hcopied.1
                    refine ⟨_, rfl, _, _, rfl, rfl, ?_, by omega, htrimmed.left, hcopied.2⟩
                    have := (isPrefix_trimRight content).length_le
                    omega
              · rw [if_pos hlf, if_pos hlf]
                exact ⟨_, rfl, rfl⟩

theorem parseHeaderValue_access (h : message.drop ptr = rest) (hname : charNul ∈ parser.namebuf.toList) :
    Access.parseHeaderValue message ptr rest.length parser = some (parseHeaderValue rest parser) := by
  obtain ⟨e, he, hagrees⟩ := valueLoop_access h
  simp only [Access.parseHeaderValue, parseHeaderValue, he, valueLoop_eq_valueRound, Option.bind_eq_bind,
    Option.bind_some]
  cases e with
  | more => rw [show valueRound [] rest = _ from hagrees]
  | bad => rw [show valueRound [] rest = _ from hagrees]
  | value p i value =>
      obtain ⟨content, after, hround, rfl, hi, hlen, hcopied⟩ := hagrees
      obtain ⟨value', hwrite, hholds, -⟩ := hcopied.1.write [charNul] (by rw [hcopied.2]; exact hi)
      have hread : value'.read 0 content.length = some content := (hholds.left).read
      rw [hround]
      have hp : p = rest.length - after.length := by omega
      simp only [hwrite, Option.bind_some, hread, Access.nameOf, if_pos hname, hp]

theorem parseChunkData_access (h : message.drop ptr = rest) :
    Access.parseChunkData message ptr rest.length parser = some (parseChunkData rest parser) := by
  obtain ⟨e, he, hagrees⟩ := copyLine_access httpChunkLineMax false h
  simp only [Access.parseChunkData, parseChunkData, he, Option.bind_eq_bind, Option.bind_some]
  cases e with
  | ran i =>
      rw [show scanLine httpChunkLineMax false [] rest = _ from hagrees]
      by_cases hi : i = httpChunkLineMax
      · simp only [if_pos hi]
      · simp only [if_neg hi]
  | more => rw [show scanLine httpChunkLineMax false [] rest = _ from hagrees]
  | bad => rw [show scanLine httpChunkLineMax false [] rest = _ from hagrees]
  | line i line =>
      obtain ⟨content, hscan, rfl, hi, hcopied⟩ := hagrees
      obtain ⟨line', hwrite, hholds, hlength⟩ := hcopied.terminate
      have htext : line'.stringFrom line'.length 0 = some (cString content) :=
        Block.stringFrom_spec [] [] hholds (by rw [hlength]; exact hi)
      have hstrtol : strtol 16 (cString content) = strtol 16 content := strtol_cString (by decide) content
      rw [hscan]
      simp only [hwrite, Option.bind_some, htext, hstrtol]
      split_ifs <;> rfl

theorem parseTrailerPart_access (h : message.drop ptr = rest) :
    Access.parseTrailerPart message ptr rest.length parser = some (parseTrailerPart rest parser) := by
  obtain ⟨e, he, hagrees⟩ : ∃ e, Access.lineLoop Access.storeNothing false message ptr rest.length
      (min httpTrailerLineMax rest.length) 0 () = some e
      ∧ LineAgrees (fun _ _ => True) httpTrailerLineMax e (scanLine httpTrailerLineMax false [] rest) :=
    lineLoop_access [] (fun _ _ _ _ _ => ⟨(), rfl, trivial⟩) h (by simp) (Nat.zero_le _) trivial
  simp only [Access.parseTrailerPart, parseTrailerPart, he, Option.bind_eq_bind, Option.bind_some]
  cases e with
  | ran i =>
      rw [show scanLine httpTrailerLineMax false [] rest = _ from hagrees]
      by_cases hi : i = httpTrailerLineMax
      · simp only [if_pos hi]
      · simp only [if_neg hi]
  | more => rw [show scanLine httpTrailerLineMax false [] rest = _ from hagrees]
  | bad => rw [show scanLine httpTrailerLineMax false [] rest = _ from hagrees]
  | line i array =>
      obtain ⟨content, hscan, rfl, -, -⟩ := hagrees
      rw [hscan]

/-- A length that is one more than there are bytes, where `ptr[i + 1]` is not there. -/
example : (Access.parseTrailerPart [charCr] 0 2 zeroedParser).isNone := by decide

end WorkflowModel.Http
