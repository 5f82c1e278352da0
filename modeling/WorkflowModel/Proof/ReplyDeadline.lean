import WorkflowModel.Kernel.ReplyTimer
import Mathlib.Algebra.Order.Ring.Int
import Mathlib.Data.List.Pairwise

/-!
# The deadlines of a reply

Every timeout that a connection is given while its reply arrives keeps both limits: it is not longer than
the response timeout, and it does not end later than the receive timeout after the reply began, up to the
millisecond that the truncating division can miss. After the timeout that the second limit has cut short
there is no other.
-/

namespace WorkflowModel.Kernel.Communicator

open WorkflowModel

def nanoseconds (t : Timespec) : Int := t.sec * 1000000000 + t.nsec

/-- The largest `int`. -/
def intLast : Int := 2 ^ 31 - 1

/-- The times of a monotonic clock, with the elapsed milliseconds in the range of `int`. -/
structure Monotonic (start : Timespec) (times : List Timespec) : Prop where
  normal : ∀ t ∈ start :: times, 0 ≤ t.nsec ∧ t.nsec < 1000000000
  ordered : (start :: times).Pairwise fun earlier later => nanoseconds earlier ≤ nanoseconds later
  elapsed : ∀ t ∈ times, nanoseconds t - nanoseconds start ≤ intLast * 1000000

/-- Both limits are of type `int`. -/
structure Limits.InRange (limits : Limits) : Prop where
  response : -2 ^ 31 ≤ limits.responseTimeout ∧ limits.responseTimeout ≤ intLast
  receive : -2 ^ 31 ≤ limits.receiveTimeout ∧ limits.receiveTimeout ≤ intLast

theorem unsignedOfInt_le_iff {a b : Int} (ha : -2 ^ 31 ≤ a ∧ a ≤ intLast) (hb : 0 ≤ b ∧ b ≤ intLast) :
    unsignedOfInt a ≤ unsignedOfInt b ↔ 0 ≤ a ∧ a ≤ b := by
  unfold unsignedOfInt
  unfold intLast at ha hb
  omega

theorem tdiv_bounds (a : Int) :
    a - 1000000 < 1000000 * Int.tdiv a 1000000 ∧ 1000000 * Int.tdiv a 1000000 < a + 1000000 := by
  have hsplit := Int.mul_tdiv_add_tmod a 1000000
  have hupper := Int.tmod_lt_of_pos a (by decide : (0 : Int) < 1000000)
  have hlower := Int.lt_tmod_of_pos a (by decide : (0 : Int) < 1000000)
  omega

namespace SessionTimer

/-- The milliseconds that are counted are those that have passed, up to one. -/
theorem timeUsed_bounds (session : SessionTimer) {now : Timespec}
    (hnow : 0 ≤ now.nsec ∧ now.nsec < 1000000000)
    (hbegin : 0 ≤ session.beginTime.nsec ∧ session.beginTime.nsec < 1000000000)
    (hle : nanoseconds session.beginTime ≤ nanoseconds now)
    (helapsed : nanoseconds now - nanoseconds session.beginTime ≤ intLast * 1000000) :
    0 ≤ timeUsed now session
      ∧ nanoseconds now - nanoseconds session.beginTime < timeUsed now session * 1000000 + 1000000 := by
  have hdiv := tdiv_bounds (now.nsec - session.beginTime.nsec)
  unfold nanoseconds intLast at *
  have hint : timeUsed now session = 1000 * (now.sec - session.beginTime.sec)
      + Int.tdiv (now.nsec - session.beginTime.nsec) 1000000 := by
    unfold timeUsed intOfLong
    apply Int.bmod_eq_of_le <;> omega
  rw [hint]
  omega

structure Within (limits : Limits) (start now : Timespec) (timeout : Int) : Prop where
  nonneg : 0 ≤ limits.receiveTimeout ∨ 0 ≤ limits.responseTimeout → 0 ≤ timeout
  part : 0 ≤ limits.responseTimeout → timeout ≤ limits.responseTimeout
  whole : 0 ≤ limits.receiveTimeout → nanoseconds now + timeout * 1000000
    ≤ max (nanoseconds now) (nanoseconds start + limits.receiveTimeout * 1000000 + 1000000)

/-- The session while the reply arrives: nothing is left to check, or the receive timeout counts from the
start. -/
structure Counting (limits : Limits) (start : Timespec) (session : SessionTimer) : Prop where
  begun : session.beginTime.nsec ≠ -1
  left : session.timeout = 0 ∨ session.timeout = limits.receiveTimeout ∧ session.beginTime = start
    ∧ 0 ≤ limits.responseTimeout ∧ (limits.receiveTimeout < 0 ∨ limits.responseTimeout < limits.receiveTimeout)

variable {limits : Limits} {start now : Timespec} {session : SessionTimer}

theorem firstTimeoutRecv_within (hlimits : limits.InRange) (session : SessionTimer)
    (hstart : 0 ≤ start.nsec) :
    Within limits start start (firstTimeoutRecv limits start session).1
      ∧ Counting limits start (firstTimeoutRecv limits start session).2 := by
  have hresponse := hlimits.response
  unfold firstTimeoutRecv firstTimeout
  split_ifs with hcut
  · have hcut : limits.responseTimeout < 0
        ∨ 0 ≤ limits.receiveTimeout ∧ limits.receiveTimeout ≤ limits.responseTimeout := by
      obtain hnone | hle := hcut
      · exact .inl hnone
      · by_cases hneg : limits.responseTimeout < 0
        · exact .inl hneg
        · exact .inr ((unsignedOfInt_le_iff hlimits.receive ⟨by omega, hresponse.2⟩).1 hle)
    refine ⟨⟨?_, ?_, ?_⟩, ⟨?_, .inl rfl⟩⟩
    · intro hlimit
      simp only
      omega
    · intro hpos
      simp only
      omega
    · intro hpos
      apply le_max_of_le_right
      simp only
      omega
    · simp
  · have hlong : 0 ≤ limits.responseTimeout
        ∧ (limits.receiveTimeout < 0 ∨ limits.responseTimeout < limits.receiveTimeout) := by
      rw [not_or, not_lt] at hcut
      obtain ⟨hpos, hgt⟩ := hcut
      rw [unsignedOfInt_le_iff hlimits.receive ⟨hpos, hresponse.2⟩] at hgt
      omega
    refine ⟨⟨?_, ?_, ?_⟩, ⟨?_, .inr ⟨rfl, rfl, hlong⟩⟩⟩
    · exact fun _ => hlong.1
    · exact fun _ => le_rfl
    · intro hpos
      apply le_max_of_le_right
      simp only
      omega
    · simp only
      omega

theorem nextTimeout_within (hlimits : limits.InRange) (h : Counting limits start session)
    (hopen : session.timeout ≠ 0) (hstart : 0 ≤ start.nsec ∧ start.nsec < 1000000000)
    (hnow : 0 ≤ now.nsec ∧ now.nsec < 1000000000) (hle : nanoseconds start ≤ nanoseconds now)
    (helapsed : nanoseconds now - nanoseconds start ≤ intLast * 1000000) :
    Within limits start now (nextTimeout limits now session).1
      ∧ Counting limits start (nextTimeout limits now session).2 := by
  obtain ⟨htimeout, hbegin, hpart, hlong⟩ := h.left.resolve_left hopen
  unfold nextTimeout
  by_cases hpos : 0 < session.timeout
  · -- the receive timeout is positive, and what is left of it is compared with the response timeout
    have hused := timeUsed_bounds session hnow (hbegin ▸ hstart) (hbegin ▸ hle)
      (hbegin ▸ helapsed)
    rw [hbegin] at hused
    rw [if_pos hpos]
    by_cases hcut : session.timeout - timeUsed now session ≤ limits.responseTimeout
    · rw [if_pos hcut]
      refine ⟨⟨?_, ?_, ?_⟩, ⟨h.begun, .inl rfl⟩⟩
      · intro _
        simp only
        split_ifs <;> omega
      · intro _
        simp only
        split_ifs <;> omega
      · intro _
        simp only
        split_ifs with hover
        · apply le_max_of_le_left
          omega
        · apply le_max_of_le_right
          omega
    · rw [if_neg hcut]
      refine ⟨⟨fun _ => hpart, fun _ => le_rfl, ?_⟩, h⟩
      intro _
      apply le_max_of_le_right
      simp only
      omega
  · rw [if_neg hpos]
    refine ⟨⟨fun _ => hpart, fun _ => le_rfl, ?_⟩, h⟩
    intro hreceive
    omega

theorem appendPart_within (hlimits : limits.InRange) (h : Counting limits start session)
    (hstart : 0 ≤ start.nsec ∧ start.nsec < 1000000000)
    (hnow : 0 ≤ now.nsec ∧ now.nsec < 1000000000) (hle : nanoseconds start ≤ nanoseconds now)
    (helapsed : nanoseconds now - nanoseconds start ≤ intLast * 1000000) :
    (∀ timeout, (appendPart limits now session).1 = some timeout → Within limits start now timeout)
      ∧ Counting limits start (appendPart limits now session).2 := by
  unfold appendPart
  by_cases hopen : session.timeout = 0
  · rw [if_neg (not_not.2 hopen)]
    refine ⟨?_, h⟩
    rintro timeout ⟨⟩
  · obtain ⟨hwithin, hcounting⟩ := nextTimeout_within hlimits h hopen hstart hnow hle helapsed
    rw [if_pos hopen]
    simp only [if_neg h.begun]
    refine ⟨?_, hcounting⟩
    rintro timeout ⟨⟩
    exact hwithin

theorem armings_within {times : List Timespec} (hlimits : limits.InRange)
    (h : Counting limits start session) (htimes : Monotonic start times) :
    ∀ armed ∈ armings limits session times, Within limits start armed.1 armed.2 := by
  induction times generalizing session with
  | nil => exact fun _ hnil => absurd hnil List.not_mem_nil
  | cons now rest ih =>
      obtain ⟨hnormal, hordered, helapsed⟩ := htimes
      obtain ⟨hle, hlater⟩ := List.pairwise_cons.1 hordered
      obtain ⟨hwithin, hcounting⟩ := appendPart_within hlimits h (hnormal start (by simp))
        (hnormal now (by simp)) (hle now (by simp)) (helapsed now (by simp))
      have hrest : Monotonic start rest := by
        refine ⟨?_, ?_, ?_⟩
        · intro t ht
          exact hnormal t (by grind)
        · exact List.pairwise_cons.2
            ⟨fun t ht => hle t (List.mem_cons_of_mem now ht), (List.pairwise_cons.1 hlater).2⟩
        · exact fun t ht => helapsed t (List.mem_cons_of_mem now ht)
      intro armed harmed
      simp only [armings, List.mem_append, List.mem_map, Option.mem_toList] at harmed
      obtain ⟨timeout, htimeout, rfl⟩ | harmed := harmed
      · exact hwithin timeout htimeout
      · exact ih hcounting hrest armed harmed

theorem armings_of_timeout_eq_zero (h : session.timeout = 0) (times : List Timespec) :
    armings limits session times = [] := by
  induction times with
  | nil => rfl
  | cons now rest ih =>
      have hpart : appendPart limits now session = (none, session) := if_neg (not_not.2 h)
      rw [armings, hpart]
      exact ih

theorem armings_append (session : SessionTimer) (before after : List Timespec) :
    armings limits session (before ++ after)
      = armings limits session before ++ armings limits (afterParts limits session before) after := by
  induction before generalizing session with
  | nil => rfl
  | cons now rest ih =>
      simp only [List.cons_append, armings, ih, List.append_assoc]
      rfl

theorem armings_of_afterParts {times before after : List Timespec} (hsplit : times = before ++ after)
    (hzero : (afterParts limits session before).timeout = 0) :
    armings limits session times = armings limits session before := by
  rw [hsplit, armings_append, armings_of_timeout_eq_zero hzero, List.append_nil]

/-- Every timeout of a reply that began with `first_timeout_recv` keeps both limits, and no part arms the
timer once nothing is left to check. -/
theorem timeouts_within (hlimits : limits.InRange) (session : SessionTimer) {times : List Timespec}
    (htimes : Monotonic start times) :
    let first := firstTimeoutRecv limits start session
    (∀ armed ∈ (start, first.1) :: armings limits first.2 times,
        Within limits start armed.1 armed.2)
      ∧ ∀ before after, times = before ++ after → (afterParts limits first.2 before).timeout = 0 →
        armings limits first.2 times = armings limits first.2 before := by
  obtain ⟨hwithin, hcounting⟩ :=
    firstTimeoutRecv_within hlimits session (htimes.normal start (List.mem_cons_self ..)).1
  constructor
  · intro armed harmed
    obtain rfl | hlater := List.mem_cons.1 harmed
    · exact hwithin
    · exact armings_within hlimits hcounting htimes armed hlater
  · exact fun before after hsplit hzero => armings_of_afterParts hsplit hzero

/-- Two limits, and parts that arrive until the first has cut a timeout short. -/
theorem timeouts_within_cutShort :
    let limits : Limits := ⟨100, 250⟩
    let start : Timespec := ⟨7, 999000000⟩
    let times : List Timespec := [⟨8, 89000000⟩, ⟨8, 170000000⟩, ⟨8, 200000000⟩]
    let first := firstTimeoutRecv limits start ⟨0, ⟨0, 0⟩⟩
    (∀ armed ∈ (start, first.1) :: armings limits first.2 times,
        Within limits start armed.1 armed.2)
      ∧ ∀ before after, times = before ++ after → (afterParts limits first.2 before).timeout = 0 →
        armings limits first.2 times = armings limits first.2 before := by
  intro limits start times first
  have hlimits : limits.InRange := ⟨by decide, by decide⟩
  have htimes : Monotonic start times := ⟨by decide, by decide, by decide⟩
  exact timeouts_within hlimits ⟨0, ⟨0, 0⟩⟩ htimes

example : (firstTimeoutRecv ⟨100, 250⟩ ⟨7, 999000000⟩ ⟨0, ⟨0, 0⟩⟩).1 = 100
    ∧ armings ⟨100, 250⟩ (firstTimeoutRecv ⟨100, 250⟩ ⟨7, 999000000⟩ ⟨0, ⟨0, 0⟩⟩).2
        [⟨8, 89000000⟩, ⟨8, 170000000⟩, ⟨8, 200000000⟩]
      = [(⟨8, 89000000⟩, 100), (⟨8, 170000000⟩, 79)] := by decide

/-- A session that has a limit of its own for the first part begins its reply with that part: the receive
timeout counts from there. -/
theorem armings_messageSent (hlimits : limits.InRange) {first : Int} (hfirst : first ≠ 0)
    (sent : Timespec) (session : SessionTimer) {times : List Timespec} (htimes : Monotonic now times) :
    let waiting := (messageSent limits first sent session).2
    (∀ armed ∈ armings limits waiting (now :: times), Within limits now armed.1 armed.2)
      ∧ ∀ before after, now :: times = before ++ after → (afterParts limits waiting before).timeout = 0 →
        armings limits waiting (now :: times) = armings limits waiting before := by
  have hnormal := htimes.normal now (List.mem_cons_self ..)
  obtain ⟨hwithin, hcounting⟩ :=
    firstTimeoutRecv_within hlimits (messageSent limits first sent session).2 hnormal.1
  have hpart : appendPart limits now (messageSent limits first sent session).2
      = (some (firstTimeoutRecv limits now (messageSent limits first sent session).2).1,
        (firstTimeoutRecv limits now (messageSent limits first sent session).2).2) := by
    simp [appendPart, messageSent, hfirst]
  constructor
  · intro armed harmed
    rw [armings, hpart] at harmed
    obtain harmed | harmed := List.mem_append.1 harmed
    · obtain rfl : armed = (now, _) := by simpa using harmed
      exact hwithin
    · exact armings_within hlimits hcounting htimes armed harmed
  · exact fun before after hsplit hzero => armings_of_afterParts hsplit hzero

theorem armings_messageSent_ownLimit :
    let limits : Limits := ⟨100, 150⟩
    let waiting := (messageSent limits 5000 ⟨3, 0⟩ ⟨0, ⟨0, 0⟩⟩).2
    let now : Timespec := ⟨7, 999000000⟩
    let times : List Timespec := [⟨8, 89000000⟩, ⟨8, 170000000⟩]
    ((∀ armed ∈ armings limits waiting (now :: times), Within limits now armed.1 armed.2)
        ∧ ∀ before after, now :: times = before ++ after → (afterParts limits waiting before).timeout = 0 →
          armings limits waiting (now :: times) = armings limits waiting before)
      ∧ armings limits waiting (now :: times) = [(now, 100), (⟨8, 89000000⟩, 60)] := by
  intro limits waiting now times
  have hlimits : limits.InRange := ⟨by decide, by decide⟩
  have htimes : Monotonic now times := ⟨by decide, by decide, by decide⟩
  exact ⟨armings_messageSent hlimits (by decide) ⟨3, 0⟩ ⟨0, ⟨0, 0⟩⟩ htimes, by decide⟩

end SessionTimer

end WorkflowModel.Kernel.Communicator
