import WorkflowModel.Util.EncodeStream
import WorkflowModel.Lib.Cells
import Mathlib.Order.MinMax
import Mathlib.Order.Nat

/-!
# What an `EncodeStream` holds

`check_merge` takes the same node for both of the two that it puts together, and then reads the one that
it deleted. It never gets through its first loop. So the array is right exactly as long as there is
nothing to merge.
-/

namespace WorkflowModel.Util

open WorkflowModel

/-- The bytes that a call appends. -/
def Append.data : Append → Bytes
  | .copyChars memory => cString memory
  | .copy data => data
  | .copyString data => data
  | .nocopyChars memory => cString memory
  | .nocopy data => data
  | .nocopyString data => data
  | .putChars memory => cString memory
  | .putString data => data
  | .putPair data => data
  | .putInt value => toDecimal value

variable {s s' : EncodeStream} {heap : Cells Buff} {base : Base} {data piece : Bytes} {p : Buff}
  {limit n len i : Nat} {call : Append} {calls : List Append}

def pieces (calls : List Append) : Nat := calls.countP fun call => call.data ≠ []

theorem pieces_cons_of_empty (hdata : call.data = []) (calls : List Append) :
    pieces (call :: calls) = pieces calls :=
  List.countP_cons_of_neg (by simpa using hdata)

theorem pieces_cons_of_nonempty (hdata : call.data ≠ []) (calls : List Append) :
    pieces (call :: calls) = pieces calls + 1 :=
  List.countP_cons_of_pos (by simpa using hdata)

theorem take_strlen (memory : Bytes) : memory.take (strlen memory) = cString memory :=
  (List.prefix_iff_eq_take.mp (List.takeWhile_prefix _)).symm

theorem strlen_le (memory : Bytes) : strlen memory ≤ memory.length :=
  (List.takeWhile_prefix _).length_le

theorem bytesAt_caller (memory : Bytes) (h : len ≤ memory.length) :
    bytesAt heap (.caller memory) len = some (memory.take len) :=
  if_pos h

theorem bytesAt_fresh (hdata : p.str = data) :
    bytesAt (heap.create p) (.str heap.fresh) data.length = some data := by
  rw [bytesAt, Cells.read_create_fresh, Option.map_some, hdata]
  simp

theorem bytesAt_create (h : bytesAt heap base len = some data) (p : Buff) :
    bytesAt (heap.create p) base len = some data := by
  cases base with
  | caller memory => exact h
  | str node =>
      cases hread : heap.read node with
      | none =>
          rw [bytesAt, hread] at h
          cases h
      | some q =>
          rw [bytesAt, Cells.read_create_of_read hread]
          rw [bytesAt, hread] at h
          exact h

structure NewBuff (heap : Cells Buff) (piece : Bytes) (p : Buff) : Prop where
  len : p.len = piece.length
  bytes : bytesAt (heap.create p) p.data piece.length = some piece

theorem appendCopy_eq (s : EncodeStream) (memory : Bytes) (hlen : len ≤ memory.length)
    (hdata : memory.take len ≠ []) :
    ∃ p, s.appendCopy memory len = s.appendBuff p ∧ NewBuff s.heap (memory.take len) p := by
  have hpos : len ≠ 0 := by
    rintro rfl
    exact hdata (List.take_zero)
  have hlength : (memory.take len).length = len := List.length_take_of_le hlen
  refine ⟨_, if_pos hpos, hlength.symm, ?_⟩
  exact bytesAt_fresh rfl

theorem appendNocopy_eq (s : EncodeStream) (memory : Bytes) (hlen : len ≤ memory.length)
    (hdata : memory.take len ≠ []) :
    ∃ p, s.appendNocopy memory len = s.appendBuff p ∧ NewBuff s.heap (memory.take len) p := by
  have hpos : len ≠ 0 := by
    rintro rfl
    exact hdata (List.take_zero)
  have hlength : (memory.take len).length = len := List.length_take_of_le hlen
  refine ⟨_, if_pos hpos, hlength.symm, ?_⟩
  rw [hlength]
  exact bytesAt_caller memory hlen

theorem appendCopy_zero (s : EncodeStream) (memory : Bytes) : s.appendCopy memory 0 = some s := rfl

theorem appendNocopy_zero (s : EncodeStream) (memory : Bytes) : s.appendNocopy memory 0 = some s := rfl

theorem Append.run_cases (call : Append) (s : EncodeStream) :
    ∃ memory len, len ≤ memory.length ∧ memory.take len = call.data ∧
      (call.run s = s.appendCopy memory len ∨ call.run s = s.appendNocopy memory len) := by
  cases call with
  | copyChars memory => exact ⟨memory, _, strlen_le memory, take_strlen memory, .inl rfl⟩
  | copy data => exact ⟨data, _, le_rfl, List.take_length, .inl rfl⟩
  | copyString data => exact ⟨data, _, le_rfl, List.take_length, .inl rfl⟩
  | nocopyChars memory => exact ⟨memory, _, strlen_le memory, take_strlen memory, .inr rfl⟩
  | nocopy data => exact ⟨data, _, le_rfl, List.take_length, .inr rfl⟩
  | nocopyString data => exact ⟨data, _, le_rfl, List.take_length, .inr rfl⟩
  | putChars memory => exact ⟨memory, _, strlen_le memory, take_strlen memory, .inr rfl⟩
  | putString data => exact ⟨data, _, le_rfl, List.take_length, .inr rfl⟩
  | putPair data => exact ⟨data, _, le_rfl, List.take_length, .inr rfl⟩
  | putInt value => exact ⟨toDecimal value, _, le_rfl, List.take_length, .inl rfl⟩

theorem Append.run_of_empty (hdata : call.data = []) (s : EncodeStream) : call.run s = some s := by
  obtain ⟨memory, len, hlen, htake, hrun⟩ := call.run_cases s
  have hzero : len = 0 := by
    have hlength := congrArg List.length (htake.trans hdata)
    rw [List.length_take_of_le hlen] at hlength
    exact hlength
  subst hzero
  rcases hrun with hrun | hrun
  · rw [hrun, appendCopy_zero]
  · rw [hrun, appendNocopy_zero]

theorem Append.run_of_nonempty (hdata : call.data ≠ []) (s : EncodeStream) :
    ∃ p, call.run s = s.appendBuff p ∧ NewBuff s.heap call.data p := by
  obtain ⟨memory, len, hlen, htake, hrun⟩ := call.run_cases s
  rw [← htake] at hdata ⊢
  rcases hrun with hrun | hrun
  · rw [hrun]
    exact appendCopy_eq s memory hlen hdata
  · rw [hrun]
    exact appendNocopy_eq s memory hlen hdata

/-- The bytes of `vec_[i]`. -/
def EncodeStream.bytesOfVec (s : EncodeStream) (i : Nat) : Option Bytes := do
  let v ← s.vec i
  bytesAt s.heap v.base v.len

/-- The stream with a new node and its `iovec`, as `check_merge` finds it. -/
def EncodeStream.added (s : EncodeStream) (p : Buff) : EncodeStream :=
  { s with
    vec := Function.update s.vec s.size (some ⟨p.data, p.len⟩)
    size := s.size + 1
    heap := s.heap.create p
    bufferList := s.bufferList ++ [s.heap.fresh] }

theorem appendBuff_eq (s : EncodeStream) (p : Buff) :
    s.appendBuff p = (s.added p).checkMerge.bind fun merged =>
      some { merged with bytes := sizeAdd merged.bytes p.len } :=
  rfl

theorem contents_eq (s : EncodeStream) :
    s.contents = ((List.range s.size).mapM s.bytesOfVec).map List.flatten :=
  rfl

theorem bytesOfVec_added_size (hp : NewBuff s.heap piece p) :
    (s.added p).bytesOfVec s.size = some piece := by
  have hvec : (s.added p).vec s.size = some ⟨p.data, p.len⟩ := Function.update_self ..
  rw [EncodeStream.bytesOfVec, hvec, Option.bind_eq_bind, Option.bind_some, hp.len]
  exact hp.bytes

theorem bytesOfVec_added_of_lt (hi : i < s.size) (h : s.bytesOfVec i = some data) :
    (s.added p).bytesOfVec i = some data := by
  have hvec : (s.added p).vec i = s.vec i := Function.update_of_ne (Nat.ne_of_lt hi) ..
  rw [EncodeStream.bytesOfVec, Option.bind_eq_bind, Option.bind_eq_some_iff] at h ⊢
  obtain ⟨v, hv, hbytes⟩ := h
  exact ⟨v, hvec.trans hv, bytesAt_create hbytes p⟩

theorem mapM_eq_some_of_imp {α β : Type*} {f g : α → Option β} :
    ∀ {l : List α} {results : List β}, (∀ x ∈ l, ∀ y, f x = some y → g x = some y) →
      l.mapM f = some results → l.mapM g = some results
  | [], results, _, h => h
  | x :: l, results, himp, h => by
      rw [List.mapM_cons, Option.bind_eq_bind, Option.bind_eq_some_iff] at h ⊢
      obtain ⟨y, hy, h⟩ := h
      refine ⟨y, himp x List.mem_cons_self y hy, ?_⟩
      rw [Option.bind_eq_bind, Option.bind_eq_some_iff] at h ⊢
      obtain ⟨ys, hys, h⟩ := h
      exact ⟨ys, mapM_eq_some_of_imp (fun x hx => himp x (List.mem_cons_of_mem _ hx)) hys, h⟩

theorem contents_added (h : s.contents = some data) (hp : NewBuff s.heap piece p) :
    (s.added p).contents = some (data ++ piece) := by
  rw [contents_eq, Option.map_eq_some_iff] at h
  obtain ⟨pieces, hpieces, rfl⟩ := h
  have hbefore : (List.range s.size).mapM (s.added p).bytesOfVec = some pieces := by
    refine mapM_eq_some_of_imp ?_ hpieces
    intro i hi bytes hbytes
    exact bytesOfVec_added_of_lt (List.mem_range.mp hi) hbytes
  have hsize : (s.added p).size = s.size + 1 := rfl
  rw [contents_eq, hsize, List.range_succ, List.mapM_append, hbefore]
  simp [bytesOfVec_added_size hp]

theorem read_deleted_eq_none {α β : Type*} (cells : Cells α) (id : Nat)
    (after : Cells α → α → Option β) :
    ((cells.delete id).bind fun cells => (cells.read id).bind (after cells)) = none := by
  cases hdelete : cells.delete id with
  | none => rfl
  | some cells' =>
      rw [Option.bind_some, Cells.read_of_delete hdelete]
      rfl

theorem mergeRound_eq_none (pos next : Nat) (s : EncodeStream) : mergeRound pos next s = none := by
  by_contra hsome
  obtain ⟨s', h⟩ := Option.ne_none_iff_exists'.mp hsome
  simp [mergeRound, read_deleted_eq_none] at h

theorem checkMerge_of_lt (h : s.size < s.max) : s.checkMerge = some s :=
  if_neg (Nat.not_le.mpr h)

theorem checkMerge_of_full (hfull : s.max ≤ s.size) (htwo : 2 ≤ s.bufferList.length) :
    s.checkMerge = none := by
  rw [EncodeStream.checkMerge, if_pos hfull]
  match hlist : s.bufferList with
  | [] => simp [hlist] at htwo
  | [_] => simp [hlist] at htwo
  | pos :: next :: rest =>
      rw [mergePairs, mergeRound_eq_none]
      rfl

theorem checkMerge_added_first (hsize : s.size = 0) (hlist : s.bufferList = []) (p : Buff) :
    (s.added p).checkMerge = some (s.added p) := by
  by_cases hfull : (s.added p).max ≤ (s.added p).size
  · have hnodes : (s.added p).bufferList = [s.heap.fresh] := by
      change s.bufferList ++ [s.heap.fresh] = _
      rw [hlist, List.nil_append]
    have hread : (s.added p).heap.read s.heap.fresh = some p := Cells.read_create_fresh s.heap p
    have hpush : EncodeStream.push p.data p.len { s.added p with size := 0 } = s.added p := by
      simp [EncodeStream.push, EncodeStream.added, hsize, Function.update_idem]
    have hmerge : mergePairs (s.added p).bufferList { s.added p with size := 0 } =
        some ([s.heap.fresh], { s.added p with size := 0 }) := by
      rw [hnodes]
      rfl
    rw [EncodeStream.checkMerge, if_pos hfull, hmerge]
    change pushRest [s.heap.fresh] { s.added p with size := 0 } = some (s.added p)
    rw [pushRest, Option.bind_eq_bind, hread, Option.bind_some, hpush]
    rfl
  · exact checkMerge_of_lt (Nat.not_le.mp hfull)

/-- With so many pieces the array is full, and there are two of them to merge. -/
def mergeAt (limit : Nat) : Nat := max 2 limit

theorem lt_mergeAt_iff : n < mergeAt limit ↔ n < 2 ∨ n < limit := lt_max_iff

/-- The stream holds `data`, in `n` pieces. -/
structure Holds (limit n : Nat) (data : Bytes) (s : EncodeStream) : Prop where
  contents : s.contents = some data
  bytes : s.bytes = data.length % sizeModulus
  max : s.max = limit
  size : s.size = n
  nodes : s.bufferList.length = n
  unwritten : ∀ i, n ≤ i → s.vec i = none

theorem holds_init (limit : Nat) : Holds limit 0 [] (EncodeStream.init limit) where
  contents := rfl
  bytes := rfl
  max := rfl
  size := rfl
  nodes := rfl
  unwritten := fun _ _ => rfl

theorem Holds.checkMerge_added (h : Holds limit n data s) (hn : n + 1 < mergeAt limit) (p : Buff) :
    (s.added p).checkMerge = some (s.added p) := by
  have hsize : (s.added p).size = n + 1 := congrArg (· + 1) h.size
  have hmax : (s.added p).max = limit := h.max
  by_cases hfirst : n = 0
  · refine checkMerge_added_first (h.size.trans hfirst) ?_ p
    exact List.length_eq_zero_iff.mp (h.nodes.trans hfirst)
  · apply checkMerge_of_lt
    rw [hsize, hmax]
    rcases lt_mergeAt_iff.mp hn with htwo | hlt
    · omega
    · exact hlt

theorem Holds.appendBuff (h : Holds limit n data s) (hp : NewBuff s.heap piece p)
    (hn : n + 1 < mergeAt limit) :
    ∃ s', s.appendBuff p = some s' ∧ Holds limit (n + 1) (data ++ piece) s' := by
  refine ⟨{ s.added p with bytes := sizeAdd (s.added p).bytes p.len }, ?_, ?_⟩
  · rw [appendBuff_eq, h.checkMerge_added hn, Option.bind_some]
  · refine ⟨contents_added h.contents hp, ?_, h.max, congrArg (· + 1) h.size, ?_, ?_⟩
    · change (s.bytes + p.len) % sizeModulus = _
      rw [h.bytes, hp.len, Nat.mod_add_mod, List.length_append]
    · change (s.bufferList ++ [s.heap.fresh]).length = n + 1
      rw [List.length_append, h.nodes, List.length_singleton]
    · intro i hi
      have hne : i ≠ s.size := by
        rw [h.size]
        omega
      exact (Function.update_of_ne hne ..).trans (h.unwritten i (by omega))

theorem Holds.appendBuff_full (h : Holds limit n data s) (hn : mergeAt limit ≤ n + 1) (p : Buff) :
    s.appendBuff p = none := by
  obtain ⟨htwo, hfull⟩ := max_le_iff.mp hn
  have hsize : (s.added p).size = n + 1 := congrArg (· + 1) h.size
  have hmax : (s.added p).max = limit := h.max
  have hnodes : (s.added p).bufferList.length = n + 1 := by
    change (s.bufferList ++ [s.heap.fresh]).length = n + 1
    rw [List.length_append, h.nodes, List.length_singleton]
  rw [appendBuff_eq, checkMerge_of_full (hmax.trans_le (hfull.trans_eq hsize.symm))
    (htwo.trans_eq hnodes.symm)]
  rfl

/-- As long as the array does not fill up, every call does its work. -/
theorem Holds.run (h : Holds limit n data s) (hn : n + pieces calls < mergeAt limit) :
    ∃ s', runAppends calls s = some s' ∧
      Holds limit (n + pieces calls) (data ++ calls.flatMap Append.data) s' := by
  induction calls generalizing n data s with
  | nil => exact ⟨s, rfl, by simpa [pieces] using h⟩
  | cons call calls ih =>
      by_cases hcall : call.data = []
      · rw [pieces_cons_of_empty hcall] at hn ⊢
        rw [runAppends, call.run_of_empty hcall, List.flatMap_cons, hcall, List.nil_append]
        exact ih h hn
      · obtain ⟨p, hrun, hp⟩ := call.run_of_nonempty hcall s
        rw [pieces_cons_of_nonempty hcall, Nat.add_comm (pieces calls), ← Nat.add_assoc] at hn ⊢
        obtain ⟨s₁, happend, h₁⟩ := h.appendBuff hp (Nat.lt_of_le_of_lt (Nat.le_add_right _ _) hn)
        rw [runAppends, hrun, happend, List.flatMap_cons, ← List.append_assoc]
        exact ih h₁ hn

theorem Holds.run_full (h : Holds limit n data s) (hroom : n < mergeAt limit)
    (hn : mergeAt limit ≤ n + pieces calls) : runAppends calls s = none := by
  induction calls generalizing n data s with
  | nil => exact absurd hn (Nat.not_le.mpr hroom)
  | cons call calls ih =>
      by_cases hcall : call.data = []
      · rw [pieces_cons_of_empty hcall] at hn
        rw [runAppends, call.run_of_empty hcall]
        exact ih h hroom hn
      · obtain ⟨p, hrun, hp⟩ := call.run_of_nonempty hcall s
        rw [pieces_cons_of_nonempty hcall, Nat.add_comm (pieces calls), ← Nat.add_assoc] at hn
        rw [runAppends, hrun]
        by_cases hfull : mergeAt limit ≤ n + 1
        · rw [h.appendBuff_full hfull]
          rfl
        · obtain ⟨s₁, happend, h₁⟩ := h.appendBuff hp (Nat.not_le.mp hfull)
          rw [happend]
          exact ih h₁ (Nat.not_le.mp hfull) hn

/-- What is to be sent after `appended` was appended. -/
structure Keeps (appended : Bytes) (s : EncodeStream) : Prop where
  contents : s.contents = some appended
  bytes : s.bytes = appended.length
  inside : ∀ i, s.max ≤ i → s.vec i = none

theorem Holds.keeps (h : Holds limit n data s) (hmax : 1 ≤ limit) (hn : n < mergeAt limit)
    (hdata : data.length < sizeModulus) : Keeps data s where
  contents := h.contents
  bytes := h.bytes.trans (Nat.mod_eq_of_lt hdata)
  inside := by
    intro i hi
    rw [h.max] at hi
    refine h.unwritten i (le_trans ?_ hi)
    rcases lt_mergeAt_iff.mp hn with htwo | hlt
    · omega
    · exact hlt.le

/-- The stream holds what was appended, after every call, exactly when the array never fills up (one
`iovec` may be full) and `bytes_` does not overflow. -/
theorem keeps_appended_iff (hmax : 1 ≤ limit) (calls : List Append) :
    (∀ k ≤ calls.length, ∃ s, runAppends (calls.take k) (EncodeStream.init limit) = some s ∧
        Keeps ((calls.take k).flatMap Append.data) s) ↔
      pieces calls < mergeAt limit ∧ (calls.flatMap Append.data).length < sizeModulus := by
  constructor
  · intro hkeeps
    obtain ⟨s, hrun, hs⟩ := hkeeps calls.length le_rfl
    rw [List.take_length] at hrun hs
    have hroom : pieces calls < mergeAt limit := by
      by_contra hfull
      have hnone : runAppends calls (EncodeStream.init limit) = none :=
        (holds_init limit).run_full (lt_mergeAt_iff.mpr (.inl Nat.two_pos)) (by simpa using hfull)
      rw [hnone] at hrun
      cases hrun
    obtain ⟨s', hrun', hs'⟩ := (holds_init limit).run (by simpa using hroom)
    obtain rfl : s = s' := Option.some_inj.mp (hrun.symm.trans hrun')
    refine ⟨hroom, ?_⟩
    calc
      (calls.flatMap Append.data).length = s.bytes := hs.bytes.symm
      _ = (calls.flatMap Append.data).length % sizeModulus := hs'.bytes
      _ < sizeModulus := Nat.mod_lt _ (by decide)
  · rintro ⟨hroom, hlength⟩ k -
    have hroom' : 0 + pieces (calls.take k) < mergeAt limit := by
      rw [Nat.zero_add]
      exact ((List.take_sublist k calls).countP_le).trans_lt hroom
    have hlength' : ((calls.take k).flatMap Append.data).length < sizeModulus := by
      have hcalls := congrArg (List.flatMap Append.data) (List.take_append_drop k calls)
      rw [List.flatMap_append] at hcalls
      rw [← hcalls, List.length_append] at hlength
      omega
    obtain ⟨s, hrun, hs⟩ := (holds_init limit).run hroom'
    exact ⟨s, hrun, hs.keeps hmax hroom' hlength'⟩

/-- Two pieces in an array of two. -/
theorem not_keeps_appended :
    ¬∀ (limit : Nat) (calls : List Append), 1 ≤ limit → ∀ k ≤ calls.length,
      ∃ s, runAppends (calls.take k) (EncodeStream.init limit) = some s ∧
        Keeps ((calls.take k).flatMap Append.data) s := by
  intro hkeeps
  obtain ⟨s, hrun, -⟩ := hkeeps 2 [.putString [97], .putString [98]] (by decide) 2 le_rfl
  have hnone : (runAppends (List.take 2 [.putString [97], .putString [98]])
      (EncodeStream.init 2)).isNone := by decide
  rw [hrun] at hnone
  cases hnone

/-- Two pieces in an array of four. -/
theorem keeps_appended_two :
    let calls : List Append := [.putString [97], .copyChars [0], .putInt (-5)]
    ∃ s, runAppends calls (EncodeStream.init 4) = some s ∧ Keeps [97, 45, 53] s := by
  obtain ⟨s, hrun, hs⟩ := (keeps_appended_iff (show 1 ≤ 4 by decide)
    [.putString [97], .copyChars [0], .putInt (-5)]).mpr (by decide) 3 (by decide)
  exact ⟨s, hrun, hs⟩

end WorkflowModel.Util
