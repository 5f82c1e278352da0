import WorkflowModel.Kernel.SendMessage
import Mathlib.Data.List.Basic

/-!
# No byte is lost in writing

Through every round of the loop, the bytes that were taken and the bytes of the vectors that are left are
together the message. The vectors that are left begin at the index the inner loop reaches, also where it
passes the end of the vectors that were offered over empty ones. On the lengths of the vectors the loop is
the one that the model of the communicator has.
-/

namespace WorkflowModel.Kernel.SendMessage

open WorkflowModel WorkflowModel.Kernel.Communicator

theorem skipWritten_le (n : Nat) (vectors : List Bytes) :
    (skipWritten n vectors).1 ≤ vectors.length
      ∧ (skipWritten n vectors).2.length = vectors.length := by
  fun_induction skipWritten n vectors with
  | case1 => simp
  | case2 n vector rest _ _ ih => simpa using ih
  | case3 => simp

theorem skipWritten_flatten (n : Nat) (vectors : List Bytes) :
    ((skipWritten n vectors).2.drop (skipWritten n vectors).1).flatten = vectors.flatten.drop n := by
  fun_induction skipWritten n vectors with
  | case1 => simp
  | case2 n vector rest hle result ih =>
      calc
        (result.2.drop result.1).flatten = rest.flatten.drop (n - vector.length) := ih
        _ = (vector ++ rest.flatten).drop n := by
            rw [List.drop_append, List.drop_eq_nil_of_le hle, List.nil_append]
  | case3 n vector rest hlt =>
      simp [List.drop_append, Nat.sub_eq_zero_of_le (Nat.le_of_lt (not_le.1 hlt))]

theorem offered_flatten_take {n : Nat} {vectors : List Bytes}
    (hn : n ≤ (offered vectors).flatten.length) :
    (offered vectors).flatten.take n = vectors.flatten.take n := by
  unfold offered at hn ⊢
  generalize (if vectors.length ≤ iovMax then vectors.length else iovMax) = window at hn ⊢
  have hsplit : vectors.flatten = (vectors.take window).flatten ++ (vectors.drop window).flatten := by
    rw [← List.flatten_append, List.take_append_drop]
  rw [hsplit, List.take_append_of_le_length hn]

/-- The last `r` vectors. -/
def lastVectors (r : Int) (vectors : List Bytes) : List Bytes :=
  vectors.drop (vectors.length - r.toNat)

/-- How a round ends in which `n` bytes were written: everything is written, a part of what was offered is
left, or the loop goes on with what was not offered. -/
theorem wrote_cases {n : Nat} {results : List WritevResult} {vectors : List Bytes} {sent : Sent}
    (h : sendMessageSync (.wrote n :: results) vectors = some sent) :
    let skipped := skipWritten n vectors
    let accepted := (offered vectors).flatten.take n
    (skipped.1 = vectors.length ∧ sent = ⟨0, skipped.2, accepted⟩)
      ∨ (skipped.1 < vectors.length ∧ skipped.1 < iovMax
        ∧ sent = ⟨(vectors.length - skipped.1 : Nat), skipped.2, accepted⟩)
      ∨ ∃ rest, skipped.1 < vectors.length ∧ iovMax ≤ skipped.1
        ∧ sendMessageSync results (skipped.2.drop skipped.1) = some rest
        ∧ sent = ⟨rest.ret, skipped.2.take skipped.1 ++ rest.vectors, accepted ++ rest.accepted⟩ := by
  intro skipped accepted
  have hle : skipped.1 ≤ vectors.length := (skipWritten_le n vectors).1
  simp only [sendMessageSync] at h
  split_ifs at h with hcnt hshort
  · cases h
    exact .inl ⟨Nat.le_antisymm hle (Nat.sub_eq_zero_iff_le.1 hcnt), rfl⟩
  · cases h
    exact .inr (.inl ⟨Nat.lt_of_sub_ne_zero hcnt, hshort, rfl⟩)
  · obtain ⟨rest, hrest, rfl⟩ := Option.map_eq_some_iff.1 h
    exact .inr (.inr ⟨rest, Nat.lt_of_sub_ne_zero hcnt, not_lt.1 hshort, hrest, rfl⟩)

theorem ret_le {results : List WritevResult} {vectors : List Bytes} {sent : Sent}
    (h : sendMessageSync results vectors = some sent) :
    sent.ret ≤ vectors.length ∧ sent.vectors.length = vectors.length := by
  induction results generalizing vectors sent with
  | nil => cases h
  | cons result results ih =>
      cases result with
      | eagain =>
          cases h
          simp
      | error errno =>
          cases h
          simp only [and_true]
          omega
      | wrote n =>
          obtain ⟨hle, hlength⟩ := skipWritten_le n vectors
          obtain ⟨-, rfl⟩ | ⟨-, -, rfl⟩ | ⟨rest, -, -, hrest, rfl⟩ := wrote_cases h
          · simp [hlength]
          · simp [hlength]
          · obtain ⟨hret, hleft⟩ := ih hrest
            simp only [List.length_append, List.length_take, List.length_drop] at hret hleft ⊢
            omega

theorem lastVectors_append {r : Int} {vectors : List Bytes} (before : List Bytes)
    (h : r ≤ vectors.length) : lastVectors r (before ++ vectors) = lastVectors r vectors := by
  unfold lastVectors
  rw [List.drop_append, List.drop_eq_nil_of_le (by simp only [List.length_append]; omega),
    List.nil_append]
  congr 1
  simp only [List.length_append]
  omega

theorem offered_append_left {n : Nat} {vectors : List Bytes} (hn : n ≤ (offered vectors).flatten.length) :
    (offered vectors).flatten.take n ++ ((skipWritten n vectors).2.drop (skipWritten n vectors).1).flatten
      = vectors.flatten := by
  rw [offered_flatten_take hn, skipWritten_flatten, List.take_append_drop]

theorem accepted_of_zero {results : List WritevResult} {vectors : List Bytes} {sent : Sent}
    (hobeys : Obeys results vectors) (h : sendMessageSync results vectors = some sent) (hzero : sent.ret = 0) :
    sent.accepted = vectors.flatten := by
  induction results generalizing vectors sent with
  | nil => cases h
  | cons result results ih =>
      cases result with
      | eagain =>
          cases h
          obtain rfl : vectors = [] := by simpa using hzero
          rfl
      | error errno =>
          cases h
          cases hzero
      | wrote n =>
          obtain ⟨hn, hlater⟩ := hobeys
          have hlength := (skipWritten_le n vectors).2
          have hwhole := offered_append_left hn
          obtain ⟨hall, rfl⟩ | ⟨hsome, -, rfl⟩ | ⟨rest, -, -, hrest, rfl⟩ := wrote_cases h
          · rw [List.drop_eq_nil_of_le (by omega), List.flatten_nil, List.append_nil] at hwhole
            exact hwhole
          · dsimp only at hzero
            omega
          · rw [← hwhole, ← ih hlater hrest hzero]

theorem accepted_append_left_of_pos {results : List WritevResult} {vectors : List Bytes} {sent : Sent}
    (hobeys : Obeys results vectors) (h : sendMessageSync results vectors = some sent) (hpos : 0 < sent.ret) :
    sent.accepted ++ (lastVectors sent.ret sent.vectors).flatten = vectors.flatten := by
  induction results generalizing vectors sent with
  | nil => cases h
  | cons result results ih =>
      cases result with
      | eagain =>
          cases h
          simp [lastVectors]
      | error errno =>
          cases h
          simp at hpos
      | wrote n =>
          obtain ⟨hn, hlater⟩ := hobeys
          have hlength := (skipWritten_le n vectors).2
          have hwhole := offered_append_left hn
          obtain ⟨hall, rfl⟩ | ⟨hsome, -, rfl⟩ | ⟨rest, -, -, hrest, rfl⟩ := wrote_cases h
          · exact absurd hpos (Int.lt_irrefl 0)
          · have hindex : (skipWritten n vectors).2.length - (vectors.length - (skipWritten n vectors).1)
                = (skipWritten n vectors).1 := by omega
            simpa only [lastVectors, Int.toNat_natCast, hindex] using hwhole
          · obtain ⟨hret, hrestLength⟩ := ret_le hrest
            have hrestRet : rest.ret ≤ rest.vectors.length := by omega
            rw [lastVectors_append _ hrestRet, List.append_assoc, ih hlater hrest hpos]
            exact hwhole

/-- When the loop returns 0 the bytes taken are the message. When it returns more, they are the message with
the last vectors. -/
theorem accepted_append_left {results : List WritevResult} {vectors : List Bytes} {sent : Sent}
    (hobeys : Obeys results vectors) (h : sendMessageSync results vectors = some sent) :
    (sent.ret = 0 → sent.accepted = vectors.flatten)
      ∧ (0 < sent.ret →
        sent.accepted ++ (lastVectors sent.ret sent.vectors).flatten = vectors.flatten) :=
  ⟨accepted_of_zero hobeys h, accepted_append_left_of_pos hobeys h⟩

/-- Three vectors of which one is empty and one is written in part. -/
theorem accepted_append_left_partWritten :
    ∃ sent, sendMessageSync [.wrote 2] [[1], [], [2, 3]] = some sent
      ∧ (sent.ret = 0 → sent.accepted = [[1], [], [2, 3]].flatten)
      ∧ (0 < sent.ret →
        sent.accepted ++ (lastVectors sent.ret sent.vectors).flatten = [[1], [], [2, 3]].flatten) := by
  have hobeys : Obeys [.wrote 2] [[1], [], [2, 3]] := ⟨by decide, trivial⟩
  exact ⟨⟨1, [[1], [], [3]], [1, 2]⟩, by decide, accepted_append_left hobeys (by decide)⟩

/-- The loop needs no more calls of `writev` than there are windows of vectors, and one. -/
theorem exists_sent {results : List WritevResult} {vectors : List Bytes}
    (h : vectors.length / iovMax < results.length) :
    ∃ sent, sendMessageSync results vectors = some sent := by
  induction results generalizing vectors with
  | nil => simp at h
  | cons result results ih =>
      cases result with
      | eagain => exact ⟨_, rfl⟩
      | error errno => exact ⟨_, rfl⟩
      | wrote n =>
          obtain ⟨hle, hlength⟩ := skipWritten_le n vectors
          simp only [sendMessageSync]
          split_ifs with hcnt hshort
          · exact ⟨_, rfl⟩
          · exact ⟨_, rfl⟩
          · have hfewer : ((skipWritten n vectors).2.drop (skipWritten n vectors).1).length / iovMax
                < results.length := by
              simp only [List.length_drop, List.length_cons, iovMax] at h hshort ⊢
              omega
            obtain ⟨sent, hsent⟩ := ih hfewer
            exact ⟨_, by rw [hsent]; rfl⟩

theorem consume_map_length (n : Nat) (vectors : List Bytes) :
    consume n (vectors.map List.length)
      = ((skipWritten n vectors).2.drop (skipWritten n vectors).1).map List.length := by
  fun_induction skipWritten n vectors with
  | case1 => rfl
  | case2 n vector rest hle result ih =>
      rw [List.map_cons, consume, if_pos hle]
      exact ih
  | case3 n vector rest hlt =>
      rw [List.map_cons, consume, if_neg hlt]
      simp

theorem sendMessageSync_wrote (n : Nat) (results : List WritevResult) {lengths : List Nat}
    (hne : lengths ≠ []) :
    Communicator.sendMessageSync (.wrote n :: results) lengths
      = if consume n lengths = [] then 0
        else if lengths.length - (consume n lengths).length < iovMax then
          ((consume n lengths).length : Int)
        else Communicator.sendMessageSync results (consume n lengths) := by
  obtain ⟨length, rest, rfl⟩ := List.exists_cons_of_ne_nil hne
  rfl

/-- The communicator's model of the loop sees the lengths of the vectors and returns the same. -/
theorem sendMessageSync_map_length {results : List WritevResult} {vectors : List Bytes} {sent : Sent}
    (hne : vectors ≠ []) (h : sendMessageSync results vectors = some sent) :
    Communicator.sendMessageSync results (vectors.map List.length) = sent.ret := by
  have hneLength : vectors.map List.length ≠ [] := by simpa using hne
  induction results generalizing vectors sent with
  | nil => cases h
  | cons result results ih =>
      cases result with
      | eagain =>
          cases h
          obtain ⟨vector, rest, rfl⟩ := List.exists_cons_of_ne_nil hne
          simp [Communicator.sendMessageSync]
      | error errno =>
          cases h
          obtain ⟨vector, rest, rfl⟩ := List.exists_cons_of_ne_nil hne
          rfl
      | wrote n =>
          obtain ⟨hle, hlength⟩ := skipWritten_le n vectors
          rw [sendMessageSync_wrote n results hneLength, consume_map_length]
          simp only [List.map_eq_nil_iff, List.drop_eq_nil_iff, List.length_map, List.length_drop, hlength]
          obtain ⟨hall, rfl⟩ | ⟨hsome, hshort, rfl⟩ | ⟨later, hsome, hlong, hlater, rfl⟩ := wrote_cases h
          · rw [if_pos (Nat.le_of_eq hall.symm)]
          · rw [if_neg (Nat.not_le.2 hsome), if_pos (by omega)]
          · rw [if_neg (Nat.not_le.2 hsome), if_neg (by omega)]
            have hleft : (skipWritten n vectors).2.drop (skipWritten n vectors).1 ≠ [] := by
              rw [← List.length_pos_iff, List.length_drop, hlength]
              omega
            have hlengths := ih hleft hlater (by simpa using hleft)
            exact hlengths

theorem ret_eq_zero_of_sendMessage {results : List WritevResult} {vectors : List Bytes} {errno : Int} {sent : Sent}
    (hne : vectors ≠ []) (h : sendMessageSync results vectors = some sent)
    (hsend : sendMessage (.encoded (vectors.map List.length) results errno) = 0) : sent.ret = 0 := by
  rw [sendMessage] at hsend
  split_ifs at hsend
  rw [← sendMessageSync_map_length hne h]
  exact hsend

end WorkflowModel.Kernel.SendMessage
