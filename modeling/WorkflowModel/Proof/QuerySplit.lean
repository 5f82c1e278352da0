import WorkflowModel.Util.URIQuery
import Mathlib.Data.List.TakeWhile

/-!
# Split queries

Of what stands behind the first `=` of a piece, `split_query_strict` keeps the part up to the next `=`. So it
gives a joined list of pairs back exactly when no value has a `=`. `split_query` takes the same pairs from the
pieces, and keeps the first value of each key.
-/

namespace WorkflowModel.Util.URIParser

open StringUtil

theorem split_eq_singleton {sep : UInt8} {str : Bytes} (h : sep ∉ str) : split sep str = [str] := by
  have hpiece : str.takeWhile (· != sep) = str := by
    rw [List.takeWhile_eq_self_iff]
    intro c hc
    exact bne_iff_ne.mpr (ne_of_mem_of_not_mem hc h)
  rw [split]
  simp only [hpiece, Nat.le_refl, if_true]

theorem split_append_cons {sep : UInt8} {piece : Bytes} (h : sep ∉ piece) (rest : Bytes) :
    split sep (piece ++ sep :: rest) = piece :: split sep rest := by
  have hpiece : (piece ++ sep :: rest).takeWhile (· != sep) = piece := by
    rw [List.takeWhile_append_of_pos, List.takeWhile_cons_of_neg (by simp), List.append_nil]
    intro c hc
    exact bne_iff_ne.mpr (ne_of_mem_of_not_mem hc h)
  have hrest : (piece ++ sep :: rest).drop (piece.length + 1) = rest := by
    rw [List.append_cons, List.drop_left' (by simp)]
  rw [split]
  simp only [hpiece, hrest]
  rw [if_neg]
  simp

theorem split_eq_splitOn (sep : UInt8) (str : Bytes) : split sep str = str.splitOn sep := by
  induction hlength : str.length using Nat.strong_induction_on generalizing str with
  | _ length ih =>
      by_cases hsep : sep ∈ str
      · obtain ⟨piece, rest, rfl, hpiece⟩ := List.eq_append_cons_of_mem hsep
        have hshorter : rest.length < length := by
          rw [← hlength, List.length_append, List.length_cons]
          omega
        rw [split_append_cons hpiece, List.splitOn_append_cons_self_of_not_mem hpiece,
          ih rest.length hshorter rest rfl]
      · rw [split_eq_singleton hsep, List.splitOn_eq_singleton hsep]

theorem split_ne_nil (sep : UInt8) (str : Bytes) : split sep str ≠ [] := by
  rw [split_eq_splitOn]
  exact List.splitOn_ne_nil sep str

theorem head_split (sep : UInt8) (str : Bytes) : (split sep str).getD 0 [] = str.takeWhile (· != sep) := by
  rw [split]
  split_ifs
  · rfl
  · rfl

/-- The part of a value up to its first `=`. -/
def cutValue (value : Bytes) : Bytes := value.takeWhile (· != charEqual)

/-- The pair that both splitters take from a piece, if they take one. -/
def pieceEntry (ele : Bytes) : Option (Bytes × Bytes) :=
  if (split charEqual ele).getD 0 [] = [] then none
  else some ((split charEqual ele).getD 0 [], (split charEqual ele).getD 1 [])

theorem pieceEntry_nil : pieceEntry [] = none := by
  rw [pieceEntry, head_split]
  rfl

theorem value_of_length_one {pieces : List Bytes} (h : pieces.length = 1) : pieces.getD 1 [] = [] := by
  rw [List.getD_eq_getElem?_getD, List.getElem?_eq_none (by omega)]
  rfl

theorem strictRound_eq (res : Bytes → Option (List Bytes)) (ele : Bytes) :
    strictRound res ele = match pieceEntry ele with
      | none => res
      | some (key, value) => Multimap.push key value res := by
  by_cases hele : ele = []
  · rw [hele, pieceEntry_nil]
    exact if_pos rfl
  · unfold strictRound pieceEntry
    dsimp only
    rw [if_neg hele]
    split_ifs with hkey hone hval
    · rfl
    · rw [value_of_length_one hone]
    · rw [hval]
    · rfl

/-- The cases of the loop of `split_query` come to one. -/
theorem firstRound_eq (res : Bytes → Option Bytes) (ele : Bytes) :
    firstRound res ele = match pieceEntry ele with
      | none => res
      | some (key, value) => if (res key).isSome = true then res else Function.update res key (some value) := by
  by_cases hele : ele = []
  · rw [hele, pieceEntry_nil]
    exact if_pos rfl
  · unfold firstRound pieceEntry
    dsimp only
    rw [if_neg hele]
    by_cases hkey : (split charEqual ele).getD 0 [] = []
    · rw [if_pos (.inl hkey), if_pos hkey]
    · rw [if_neg hkey]
      dsimp only
      by_cases hmem : (res ((split charEqual ele).getD 0 [])).isSome = true
      · rw [if_pos (.inr hmem), if_pos hmem]
      · rw [if_neg (by tauto), if_neg hmem]
        split_ifs with hone hval
        · rw [value_of_length_one hone]
        · rw [hval]
        · rfl

theorem pieceEntry_key_ne_nil {ele key value : Bytes} (h : pieceEntry ele = some (key, value)) : key ≠ [] := by
  unfold pieceEntry at h
  split_ifs at h with hkey
  cases h
  exact hkey

def joinPair (pair : Bytes × Bytes) : Bytes := pair.1 ++ charEqual :: pair.2

/-- The pairs as `k=v`, joined with `&`. -/
def joinQuery (pairs : List (Bytes × Bytes)) : Bytes := [charAmp].intercalate (pairs.map joinPair)

/-- The separators leave the key whole, and `&` leaves the value whole. -/
def QueryPair (pair : Bytes × Bytes) : Prop :=
  pair.1 ≠ [] ∧ charAmp ∉ pair.1 ∧ charEqual ∉ pair.1 ∧ charAmp ∉ pair.2

/-- The map that sends each key to the list of its values in their order. -/
def groupedValues (pairs : List (Bytes × Bytes)) : Bytes → Option (List Bytes) := fun key =>
  if Multimap.valuesOf key pairs = [] then none else some (Multimap.valuesOf key pairs)

theorem pieceEntry_joinPair {pair : Bytes × Bytes} (h : QueryPair pair) :
    pieceEntry (joinPair pair) = some (pair.1, cutValue pair.2) := by
  obtain ⟨hkey, -, hequal, -⟩ := h
  unfold pieceEntry joinPair
  rw [split_append_cons hequal, List.getD_cons_zero, if_neg hkey, List.getD_cons_succ, head_split]
  rfl

theorem strictRound_joinPair {pair : Bytes × Bytes} (h : QueryPair pair) (res : Bytes → Option (List Bytes)) :
    strictRound res (joinPair pair) = Multimap.push pair.1 (cutValue pair.2) res := by
  rw [strictRound_eq, pieceEntry_joinPair h]

def cutPair (pair : Bytes × Bytes) : Bytes × Bytes := (pair.1, cutValue pair.2)

theorem foldl_strictRound_joinPair {pairs : List (Bytes × Bytes)} (h : ∀ pair ∈ pairs, QueryPair pair)
    (res : Bytes → Option (List Bytes)) :
    (pairs.map joinPair).foldl strictRound res
      = (pairs.map cutPair).foldl (fun m entry => Multimap.push entry.1 entry.2 m) res := by
  induction pairs generalizing res with
  | nil => rfl
  | cons pair pairs ih =>
      rw [List.map_cons, List.foldl_cons, strictRound_joinPair (h pair List.mem_cons_self)]
      exact ih (fun other hother => h other (List.mem_cons_of_mem _ hother)) _

theorem split_joinQuery {pairs : List (Bytes × Bytes)} (h : ∀ pair ∈ pairs, QueryPair pair) (hne : pairs ≠ []) :
    split charAmp (joinQuery pairs) = pairs.map joinPair := by
  rw [split_eq_splitOn]
  apply List.splitOn_intercalate
  · intro piece hpiece
    obtain ⟨pair, hpair, rfl⟩ := List.mem_map.mp hpiece
    obtain ⟨-, hkey, -, hvalue⟩ := h pair hpair
    have hequal : charAmp ≠ charEqual := by decide
    simp [joinPair, hkey, hvalue, hequal]
  · simpa using hne

/-- What `split_query_strict` gives for joined pairs: the pairs with their values cut. -/
theorem splitQueryStrict_joinQuery {pairs : List (Bytes × Bytes)} (h : ∀ pair ∈ pairs, QueryPair pair) :
    splitQueryStrict (joinQuery pairs) = groupedValues (pairs.map cutPair) := by
  have hgrouped : splitQueryStrict (joinQuery pairs) = Multimap.ofList (pairs.map cutPair) := by
    match pairs with
    | [] => rfl
    | pair :: rest =>
        have hsplit := split_joinQuery h (List.cons_ne_nil pair rest)
        have hquery : joinQuery (pair :: rest) ≠ [] := by
          intro hnil
          rw [hnil, split_eq_singleton List.not_mem_nil, List.map_cons] at hsplit
          have hpair := (List.cons.inj hsplit).1
          simp [joinPair] at hpair
        unfold splitQueryStrict
        rw [if_neg hquery]
        dsimp only
        rw [if_neg (split_ne_nil _ _), hsplit, foldl_strictRound_joinPair h]
        rfl
  funext key
  rw [hgrouped, Multimap.ofList_apply]
  rfl

theorem cutValue_eq_self_iff {value : Bytes} : cutValue value = value ↔ charEqual ∉ value := by
  unfold cutValue
  rw [List.takeWhile_eq_self_iff]
  constructor
  · intro h hmem
    exact absurd rfl (bne_iff_ne.mp (h _ hmem))
  · intro h c hc
    exact bne_iff_ne.mpr (ne_of_mem_of_not_mem hc h)

theorem valuesOf_map_cutPair (pairs : List (Bytes × Bytes)) (key : Bytes) :
    Multimap.valuesOf key (pairs.map cutPair) = (Multimap.valuesOf key pairs).map cutValue := by
  induction pairs with
  | nil => rfl
  | cons pair pairs ih =>
      by_cases hkey : pair.1 = key <;> simp_all [Multimap.valuesOf, cutPair]

/-- A joined list of pairs comes back as it was exactly when no value has a `=`. -/
theorem splitQueryStrict_joinQuery_iff {pairs : List (Bytes × Bytes)} (h : ∀ pair ∈ pairs, QueryPair pair) :
    splitQueryStrict (joinQuery pairs) = groupedValues pairs ↔ ∀ pair ∈ pairs, charEqual ∉ pair.2 := by
  rw [splitQueryStrict_joinQuery h]
  constructor
  · intro heq pair hpair
    have hvalue : pair.2 ∈ Multimap.valuesOf pair.1 pairs := by
      apply List.mem_map.mpr
      exact ⟨pair, List.mem_filter.mpr ⟨hpair, decide_eq_true rfl⟩, rfl⟩
    have hkey := congrFun heq pair.1
    unfold groupedValues at hkey
    rw [valuesOf_map_cutPair, if_neg (by simpa using List.ne_nil_of_mem hvalue),
      if_neg (List.ne_nil_of_mem hvalue)] at hkey
    have hvalues : (Multimap.valuesOf pair.1 pairs).map cutValue = (Multimap.valuesOf pair.1 pairs).map id := by
      rw [List.map_id]
      exact Option.some.inj hkey
    exact cutValue_eq_self_iff.mp (List.map_inj_left.mp hvalues pair.2 hvalue)
  · intro hvalues
    congr 1
    calc pairs.map cutPair = pairs.map id := by
          apply List.map_inj_left.mpr
          intro pair hpair
          exact Prod.ext rfl (cutValue_eq_self_iff.mpr (hvalues pair hpair))
      _ = pairs := List.map_id pairs

theorem splitQueryStrict_joinQuery_token :
    splitQueryStrict (joinQuery [(bytesOf "q", bytesOf "a"), (bytesOf "q", [])])
      = groupedValues [(bytesOf "q", bytesOf "a"), (bytesOf "q", [])] := by
  have hpairs : ∀ pair ∈ [(bytesOf "q", bytesOf "a"), (bytesOf "q", [])], QueryPair pair := by
    unfold QueryPair
    decide
  exact (splitQueryStrict_joinQuery_iff hpairs).mpr (by decide)

/-- A padded value loses its padding. -/
theorem splitQueryStrict_drops_padding :
    ¬∀ pairs : List (Bytes × Bytes), (∀ pair ∈ pairs, QueryPair pair) →
      splitQueryStrict (joinQuery pairs) = groupedValues pairs := by
  intro hall
  have hpairs : ∀ pair ∈ [(bytesOf "t", bytesOf "YQ==")], QueryPair pair := by
    unfold QueryPair
    decide
  have hsplit := hall _ hpairs
  rw [splitQueryStrict_joinQuery hpairs] at hsplit
  exact absurd (congrFun hsplit (bytesOf "t")) (by decide)

def FirstValues (strict : Bytes → Option (List Bytes)) (first : Bytes → Option Bytes) : Prop :=
  ∀ key, (first key).isSome = (strict key).isSome
    ∧ ∀ values, strict key = some values → values ≠ [] ∧ key ≠ [] ∧ first key = values.head?

theorem FirstValues.round {strict : Bytes → Option (List Bytes)} {first : Bytes → Option Bytes}
    (h : FirstValues strict first) (ele : Bytes) : FirstValues (strictRound strict ele) (firstRound first ele) := by
  rw [strictRound_eq, firstRound_eq]
  match hentry : pieceEntry ele with
  | none => exact h
  | some (key, value) =>
      have hkey := pieceEntry_key_ne_nil hentry
      dsimp only
      intro other
      rw [Multimap.push_apply]
      obtain rfl | hother := eq_or_ne other key
      · rw [if_pos rfl]
        obtain ⟨hsome, hvalues⟩ := h other
        match hstrict : strict other with
        | none =>
            -- the first value of the key
            rw [hstrict, Option.isSome_none] at hsome
            rw [if_neg (by rw [hsome]; exact Bool.false_ne_true), Function.update_self]
            refine ⟨rfl, ?_⟩
            rintro _ ⟨⟩
            exact ⟨List.cons_ne_nil _ _, hkey, rfl⟩
        | some values =>
            rw [hstrict, Option.isSome_some] at hsome
            obtain ⟨hne, -, hfirst⟩ := hvalues values hstrict
            rw [if_pos hsome]
            refine ⟨hsome, ?_⟩
            rintro _ ⟨⟩
            refine ⟨by simp, hkey, ?_⟩
            rw [hfirst, Option.getD_some, List.head?_append_of_ne_nil _ hne]
      · rw [if_neg hother]
        split_ifs with hmem
        · exact h other
        · rw [Function.update_of_ne hother]
          exact h other

theorem FirstValues.foldl (arr : List Bytes) {strict : Bytes → Option (List Bytes)} {first : Bytes → Option Bytes}
    (h : FirstValues strict first) : FirstValues (arr.foldl strictRound strict) (arr.foldl firstRound first) := by
  induction arr generalizing strict first with
  | nil => exact h
  | cons ele arr ih => exact ih (h.round ele)

theorem FirstValues.empty : FirstValues (fun _ => none) fun _ => none := by
  intro key
  refine ⟨rfl, ?_⟩
  rintro _ ⟨⟩

/-- For every query `split_query` has the keys of `split_query_strict`, with the first value of each. -/
theorem firstValues_splitQuery (query : Bytes) : FirstValues (splitQueryStrict query) (splitQuery query) := by
  unfold splitQueryStrict splitQuery
  dsimp only
  split_ifs
  · exact FirstValues.empty
  · exact FirstValues.empty
  · exact FirstValues.empty.foldl _

end WorkflowModel.Util.URIParser
