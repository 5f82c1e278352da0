import WorkflowModel.Kernel.ResultQueue
import WorkflowModel.Lib.Replay

/-!
# The result queue is a queue

At any time, also between the two writes of a swap, the results that were put are those that were taken, then those in
the list that `put_list` does not point to, then those in the list that it points to. In the middle of a
swap the former list is empty.
-/

namespace WorkflowModel.Kernel.ResultQueue

variable {s s' : State} {maxlen : UInt64} {turn : Turn}

@[simp] theorem ResList.other_other (l : ResList) : l.other.other = l := by
  cases l <;> rfl

@[simp] theorem ResList.other_ne (l : ResList) : l.other ≠ l := by
  cases l <;> simp [ResList.other]

@[simp] theorem ResList.ne_other (l : ResList) : l ≠ l.other := l.other_ne.symm

def Entry.put? : Entry → Option Nat
  | .put res _ => some res
  | _ => none

def Entry.got? : Entry → Option Nat
  | .got _ res => some res
  | _ => none

/-- The results that were put after the last swap, each with the flag of its poller. -/
def sinceSwap : List Entry → List (Nat × Bool) :=
  List.foldl (fun results e => match e with
    | .put res stopping => results ++ [(res, stopping)]
    | .swapped => []
    | _ => results) []

namespace State

def put (s : State) : List Nat := s.log.filterMap Entry.put?

def got (s : State) : List Nat := s.log.filterMap Entry.got?

/-- The results in the two lists, in the order in which they will be taken. -/
def left (s : State) : List Nat := s.lists s.putList.other ++ s.lists s.putList

end State

/-- The part of the invariant that depends on the thread that gets a result. -/
def GetterOk (s : State) : Getter → Prop
  | .free => s.getList = s.putList.other
  | .swapping _ getList => s.getList = s.putList ∧ getList = s.putList.other ∧ s.lists getList = []
  | .swapped _ cnt => s.getList = s.putList.other ∧ (s.lists s.getList).length = cnt

structure Sound (maxlen : UInt64) (s : State) : Prop where
  resMax : s.resMax = maxlen
  fifo : s.put = s.got ++ s.left
  resCnt : s.resCnt = (s.lists s.putList).length
  since : s.lists s.putList = (sinceSwap s.log).map Prod.fst
  getter : GetterOk s s.getter
  bound : 1 ≤ maxlen → (∀ r ∈ sinceSwap s.log, r.2 = false) → s.resCnt ≤ maxlen.toNat

theorem sound_create (maxlen : UInt64) : Sound maxlen (create maxlen) := by
  constructor
  · rfl
  · rfl
  · rfl
  · rfl
  · rfl
  · intro _ _
    exact Nat.zero_le _

theorem toNat_sub_one {n : UInt64} (h : 1 ≤ n) : (n - 1).toNat + 1 = n.toNat := by
  have hone : 1 ≤ n.toNat := UInt64.le_iff_toNat_le.mp h
  rw [UInt64.toNat_sub_of_le _ _ h]
  exact Nat.sub_add_cancel hone

theorem put_append (hlog : s'.log = s.log ++ [e]) : s'.put = s.put ++ e.put?.toList := by
  rw [State.put, hlog, List.filterMap_append]
  cases h : e.put? <;> simp [h, State.put]

theorem got_append (hlog : s'.log = s.log ++ [e]) : s'.got = s.got ++ e.got?.toList := by
  rw [State.got, hlog, List.filterMap_append]
  cases h : e.got? <;> simp [h, State.got]

theorem Sound.addResult {poller res : Nat} (h : Sound maxlen s) (hadd : addResult s poller res = some s') :
    Sound maxlen s' := by
  simp only [ResultQueue.addResult, Option.ite_none_left_eq_some, Option.some.injEq] at hadd
  obtain ⟨hroom, rfl⟩ := hadd
  have hsince : sinceSwap (s.log ++ [.put res (s.stopping poller)])
      = sinceSwap s.log ++ [(res, s.stopping poller)] := by
    rw [sinceSwap, List.foldl_append]
    rfl
  constructor
  · exact h.resMax
  · rw [put_append (s := s) rfl, got_append (s := s) rfl, h.fifo]
    simp [State.left, Entry.put?, Entry.got?]
  · simp [h.resCnt]
  · simp [hsince, h.since]
  · have hgetter := h.getter
    cases hs : s.getter with
    | free => simpa [GetterOk, hs] using hgetter
    | swapping t getList =>
        rw [hs] at hgetter
        obtain ⟨hget, hold, hempty⟩ := hgetter
        refine ⟨hget, hold, ?_⟩
        rw [hold] at hempty ⊢
        simpa using hempty
    | swapped t cnt =>
        rw [hs] at hgetter
        obtain ⟨hget, hlength⟩ := hgetter
        refine ⟨hget, ?_⟩
        rw [hget] at hlength ⊢
        simpa using hlength
  · intro hmax hstopping
    rw [hsince, List.forall_mem_append, List.forall_mem_singleton] at hstopping
    have hnot : ¬ s.full := fun hfull => hroom ⟨hfull, hstopping.2⟩
    rw [State.full, h.resMax] at hnot
    have := toNat_sub_one hmax
    simp only
    omega

/-- The first result of `get_list` is taken while the other list is the one that results are put in. -/
theorem Sound.takeFirst {thread : Nat} (h : Sound maxlen s) (hget : s.getList = s.putList.other)
    (hfree : s.getter = .free) (htake : takeFirst s thread = some s') : Sound maxlen s' := by
  simp only [ResultQueue.takeFirst] at htake
  split at htake
  next res rest hfirst =>
    obtain rfl := Option.some.inj htake
    have hsince : sinceSwap (s.log ++ [.got thread res]) = sinceSwap s.log := by
      rw [sinceSwap, List.foldl_append]
      rfl
    constructor
    · exact h.resMax
    · rw [put_append (s := s) rfl, got_append (s := s) rfl, h.fifo]
      rw [hget] at hfirst
      simp [State.left, Entry.put?, Entry.got?, hget, hfirst]
    · simp [h.resCnt, hget]
    · simp [hsince, h.since, hget]
    · rw [hfree]
      exact hget
    · rw [hsince]
      exact h.bound
  · contradiction

theorem Sound.queueGet {thread : Nat} (h : Sound maxlen s) (hfree : s.getter = .free)
    (hqueueGet : queueGet s thread = some s') : Sound maxlen s' := by
  have hgetter := h.getter
  rw [hfree] at hgetter
  simp only [ResultQueue.queueGet] at hqueueGet
  split at hqueueGet
  · exact h.takeFirst hgetter hfree hqueueGet
  next hempty =>
    obtain rfl := Option.some.inj hqueueGet
    exact ⟨h.resMax, h.fifo, h.resCnt, h.since, ⟨rfl, hgetter, not_not.mp hempty⟩, h.bound⟩

/-- The second write: the empty list is the one that results are put in. -/
theorem Sound.queueSwap {thread : Nat} {getList : ResList} (h : Sound maxlen s)
    (hswapping : s.getter = .swapping thread getList) (hswap : queueSwap s thread getList = some s') :
    Sound maxlen s' := by
  have hgetter := h.getter
  rw [hswapping] at hgetter
  obtain ⟨hget, hold, hempty⟩ := hgetter
  simp only [ResultQueue.queueSwap, Option.ite_none_left_eq_some, Option.some.injEq] at hswap
  obtain ⟨-, rfl⟩ := hswap
  have hsince : sinceSwap (s.log ++ [.swapped]) = [] := by
    rw [sinceSwap, List.foldl_append]
    rfl
  constructor
  · exact h.resMax
  · rw [put_append (s := s) rfl, got_append (s := s) rfl, h.fifo]
    rw [hold] at hempty
    simp [State.left, Entry.put?, Entry.got?, hold, hempty]
  · simp [hempty]
  · simp [hsince, hempty]
  · refine ⟨?_, ?_⟩
    · rw [hget, hold, ResList.other_other]
    · rw [hget]
      exact h.resCnt.symm
  · intro _ _
    exact Nat.zero_le _

/-- A swap that came back with a count has brought results to `get_list`. -/
theorem Sound.afterSwap {thread cnt : Nat} (h : Sound maxlen s) (hswapped : s.getter = .swapped thread cnt)
    (hafter : afterSwap s thread cnt = some s') : Sound maxlen s' := by
  have hgetter := h.getter
  rw [hswapped] at hgetter
  have hfree : Sound maxlen { s with getter := .free } :=
    ⟨h.resMax, h.fifo, h.resCnt, h.since, hgetter.1, h.bound⟩
  simp only [ResultQueue.afterSwap] at hafter
  split at hafter
  · exact hfree.takeFirst hgetter.1 rfl hafter
  · obtain rfl := Option.some.inj hafter
    have hsince : sinceSwap (s.log ++ [.enoent thread]) = sinceSwap s.log := by
      rw [sinceSwap, List.foldl_append]
      rfl
    constructor
    · exact h.resMax
    · rw [put_append (s := s) rfl, got_append (s := s) rfl, h.fifo]
      simp [State.left, Entry.put?, Entry.got?]
    · exact h.resCnt
    · rw [hsince]
      exact h.since
    · exact hgetter.1
    · rw [hsince]
      exact h.bound

theorem Sound.step (h : Sound maxlen s) (hstep : step s turn = some s') : Sound maxlen s' := by
  cases turn with
  | addResult poller res => exact h.addResult hstep
  | queueGet thread =>
      simp only [ResultQueue.step] at hstep
      split at hstep
      next hfree => exact h.queueGet hfree hstep
      · contradiction
  | queueSwap thread =>
      simp only [ResultQueue.step] at hstep
      split at hstep
      next t getList hswapping =>
        obtain ⟨rfl, hswap⟩ := Option.ite_none_right_eq_some.mp hstep
        exact h.queueSwap hswapping hswap
      · contradiction
  | afterSwap thread =>
      simp only [ResultQueue.step] at hstep
      split at hstep
      next t cnt hswapped =>
        obtain ⟨rfl, hafter⟩ := Option.ite_none_right_eq_some.mp hstep
        exact h.afterSwap hswapped hafter
      · contradiction
  | setNonblock nonblock =>
      obtain rfl := Option.some.inj hstep
      exact ⟨h.resMax, h.fifo, h.resCnt, h.since, h.getter, h.bound⟩
  | setStopping poller stopping =>
      obtain rfl := Option.some.inj hstep
      exact ⟨h.resMax, h.fifo, h.resCnt, h.since, h.getter, h.bound⟩

theorem Reached.sound (h : Reached maxlen s) : Sound maxlen s := by
  induction h with
  | create => exact sound_create maxlen
  | step _ hstep ih => exact ih.step hstep

/-- The queue in a state of a run. `left` is the two lists, each once, and the fields after `fifo` are the
count, that a list has a first node where one is taken from it, and the two sides of the limit: a poller that is not
stopping does not put a result beyond it, and without such results since the swap it holds. -/
structure Delivers (maxlen : UInt64) (s : State) : Prop where
  fifo : s.put = s.got ++ s.left
  resCnt : s.resCnt = (sinceSwap s.log).length
  served : ∀ thread, (s.getter = .free → (queueGet s thread).isSome = true)
    ∧ ∀ cnt, s.getter = .swapped thread cnt → (afterSwap s thread cnt).isSome = true
  room : 1 ≤ maxlen → ∀ poller res s', s.stopping poller = false → addResult s poller res = some s' →
    s'.resCnt ≤ maxlen.toNat
  bound : 1 ≤ maxlen → (∀ r ∈ sinceSwap s.log, r.2 = false) → s.resCnt ≤ maxlen.toNat

theorem takeFirst_isSome {thread : Nat} (h : s.lists s.getList ≠ []) : (takeFirst s thread).isSome = true := by
  rw [takeFirst]
  split
  · rfl
  next hempty => exact absurd hempty h

theorem delivers_of_reached (h : Reached maxlen s) : Delivers maxlen s := by
  have hs := h.sound
  constructor
  · exact hs.fifo
  · rw [hs.resCnt, hs.since, List.length_map]
  · intro thread
    refine ⟨fun _ => ?_, fun cnt hswapped => ?_⟩
    · rw [queueGet]
      split
      next hne => exact takeFirst_isSome hne
      · rfl
    · have hgetter := hs.getter
      rw [hswapped] at hgetter
      simp only [afterSwap]
      split
      next hpos =>
        apply takeFirst_isSome
        intro hempty
        rw [← hgetter.2, hempty] at hpos
        exact absurd hpos (Nat.lt_irrefl 0)
      · rfl
  · intro hmax poller res s' hstopping hadd
    simp only [addResult, Option.ite_none_left_eq_some, Option.some.injEq] at hadd
    obtain ⟨hroom, rfl⟩ := hadd
    have hnot : ¬ s.full := fun hfull => hroom ⟨hfull, hstopping⟩
    rw [State.full, hs.resMax] at hnot
    have := toNat_sub_one hmax
    simp only
    omega
  · exact hs.bound

/-- Two results come while the thread 8 is in the middle of its swap, and a third one before it has taken the
first. -/
def swapTurns : List Turn :=
  [.setStopping 0 false, .setStopping 1 false, .queueGet 8, .addResult 0 20, .addResult 1 21, .queueSwap 8,
    .addResult 0 22, .afterSwap 8, .queueGet 9]

theorem delivers_swapTurns : ∃ s, Reached 2 s ∧ Delivers 2 s ∧ s.put = [20, 21, 22] ∧ s.got = [20, 21]
    ∧ s.left = [22] ∧ s.resCnt = 1 := by
  have hends : (Replay.replay step (create 2) swapTurns).map (fun s => (s.put, s.got, s.left, s.resCnt))
      = some ([20, 21, 22], [20, 21], [22], 1) := by
    decide +kernel
  obtain ⟨s, hreplay, hs⟩ := Option.map_eq_some_iff.1 hends
  simp only [Prod.mk.injEq] at hs
  have hreached : Reached 2 s := Replay.replay_preserves (fun _ _ _ _ h hstep => h.step hstep) .create hreplay
  exact ⟨s, hreached, delivers_of_reached hreached, hs⟩

end WorkflowModel.Kernel.ResultQueue
