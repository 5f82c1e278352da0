import WorkflowModel.Lib.Replay
import WorkflowModel.Proof.ExecutorRuns

/-!
# Sessions are handled once

The counts of `Sound` follow a session from its request to the call of `handle`. When `deinit` is through, the
threads have no session in hand and no queue has one, so each accepted request has had its call.
-/

namespace WorkflowModel.Kernel.Executor

variable {s s' : State} {nthreads : Nat} {turn : Turn}

def State.Ended (s : State) : Prop :=
  s.terminate = true ∧ (∀ thread ∈ s.threads, thread = .exited) ∧ s.taskQueue = []

/-- How many steps a thread has before it, and one for the ticket that it may put back. -/
def PoolThread.work : PoolThread → Nat
  | .exited => 0
  | .idle => 1
  | .executed _ _ => 2
  | .running _ _ => 3
  | .taken _ => 5

def State.work (s : State) : Nat := (s.threads.map PoolThread.work).sum + s.taskQueue.length

/-- Once `deinit` has begun a step leaves less work. -/
theorem work_lt_of_step (hterminate : s.terminate = true) (hstep : step s turn = some s') :
    s'.terminate = true ∧ s'.work < s.work := by
  cases turn with
  | request session queue entryOk scheduleOk => simp [step, hterminate] at hstep
  | take thread =>
      simp only [step, hterminate] at hstep
      split at hstep <;> simp at hstep
  | threadSection thread =>
      simp only [step] at hstep
      split at hstep
      next queue hx =>
        simp only [threadSection] at hstep
        split at hstep
        next session rest hqueue =>
          have hsum := ListSet.sum_map_set_add PoolThread.work hx (.running queue session)
          rw [← Option.some.inj hstep]
          split
          · refine ⟨hterminate, ?_⟩
            simp only [State.work, PoolThread.work, List.length_append, List.length_singleton] at hsum ⊢
            omega
          · refine ⟨hterminate, ?_⟩
            simp only [State.work, PoolThread.work] at hsum ⊢
            omega
        · contradiction
      · contradiction
  | execute thread =>
      simp only [step] at hstep
      split at hstep
      next queue session hx =>
        have hsum := ListSet.sum_map_set_add PoolThread.work hx (.executed queue session)
        rw [← Option.some.inj hstep]
        refine ⟨hterminate, ?_⟩
        simp only [State.work, PoolThread.work] at hsum ⊢
        omega
      · contradiction
  | handle thread =>
      simp only [step] at hstep
      split at hstep
      next queue session hx =>
        have hsum := ListSet.sum_map_set_add PoolThread.work hx .idle
        rw [← Option.some.inj hstep]
        refine ⟨hterminate, ?_⟩
        simp only [State.work, PoolThread.work] at hsum ⊢
        omega
      · contradiction
  | terminate => simp [step, hterminate] at hstep
  | exit thread =>
      simp only [step, hterminate, if_true] at hstep
      split at hstep
      next hx =>
        have hsum := ListSet.sum_map_set_add PoolThread.work hx .exited
        rw [← Option.some.inj hstep]
        refine ⟨rfl, ?_⟩
        simp only [State.work, PoolThread.work] at hsum ⊢
        omega
      · contradiction
  | cancel =>
      simp only [step] at hstep
      split at hstep
      next queue rest htaskQueue =>
        split at hstep
        · rw [← Option.some.inj hstep]
          refine ⟨hterminate, ?_⟩
          simp only [State.work, cancelTasks, htaskQueue, List.length_cons]
          omega
        · contradiction
      · contradiction

theorem Sound.threadSection_isSome {thread queue : Nat} (h : Sound s)
    (hx : s.threads[thread]? = some (.taken queue)) : (threadSection s thread queue).isSome = true := by
  have hone := h.tickets queue
  have hmem : 0 < s.threads.count (.taken queue) := List.count_pos_iff.mpr (List.mem_of_getElem? hx)
  rw [State.tickets] at hone
  rw [threadSection]
  split
  · rfl
  next hempty =>
    rw [if_pos hempty] at hone
    omega

/-- `deinit` does not stop before its end. -/
theorem Sound.exists_step (h : Sound s) (hterminate : s.terminate = true) (hend : ¬ s.Ended) :
    ∃ turn, (Executor.step s turn).isSome = true := by
  by_cases hexited : ∀ thread ∈ s.threads, thread = .exited
  · rcases htaskQueue : s.taskQueue with _ | ⟨queue, rest⟩
    · exact absurd ⟨hterminate, hexited, htaskQueue⟩ hend
    · refine ⟨.cancel, ?_⟩
      simp only [Executor.step, htaskQueue]
      rw [if_pos ⟨hterminate, hexited⟩]
      rfl
  · obtain ⟨x, hx⟩ := not_forall.mp hexited
    obtain ⟨hmem, hne⟩ := Classical.not_imp.mp hx
    obtain ⟨i, hi⟩ := List.mem_iff_getElem?.mp hmem
    cases x with
    | idle => exact ⟨.exit i, by simp [Executor.step, hi, hterminate]⟩
    | taken queue =>
        refine ⟨.threadSection i, ?_⟩
        simp only [Executor.step, hi]
        exact h.threadSection_isSome hi
    | running queue session => exact ⟨.execute i, by simp [Executor.step, hi]⟩
    | executed queue session => exact ⟨.handle i, by simp [Executor.step, hi]⟩
    | exited => exact absurd rfl hne

theorem count_filterMap_eq {f : Entry → Option Nat} {x : Nat} {e : Entry} (hf : ∀ a, f a = some x ↔ a = e)
    (log : List Entry) : (log.filterMap f).count x = log.count e := by
  rw [List.count_filterMap, List.count]
  refine List.countP_congr fun a _ => ?_
  rw [beq_iff_eq, beq_iff_eq]
  exact hf a

theorem count_accepted (s : State) (q x : Nat) : (s.accepted q).count x = s.log.count (.accepted q x) := by
  apply count_filterMap_eq
  intro a
  cases a <;> simp [Entry.accepted?]

theorem count_canceled_eq (s : State) (q x : Nat) :
    (s.canceled q).count x = s.log.count (.handled q x .canceled) := by
  apply count_filterMap_eq
  intro a
  rcases a with _ | _ | _ | _ | ⟨_, _, _ | _⟩ <;> simp [Entry.canceled?]

theorem Sound.accepted_count (h : Sound s) (q x : Nat) :
    s.log.count (.accepted q x) = s.log.count (.handled q x .finished) + s.log.count (.handled q x .canceled)
      + s.threads.count (.running q x) + s.threads.count (.executed q x) + (s.taskList q).count x := by
  have horder := congrArg (List.count x) (h.order q)
  have htaken := h.taken q x
  have hexecuted := h.executed q x
  rw [List.count_append, List.count_append, count_accepted, count_canceled_eq] at horder
  omega

theorem Sound.taskList_of_ended (h : Sound s) (hend : s.Ended) (q : Nat) : s.taskList q = [] := by
  obtain ⟨-, hexited, htaskQueue⟩ := hend
  have hone := h.tickets q
  have hnone : s.threads.count (.taken q) = 0 := by
    rw [List.count_eq_zero]
    intro hmem
    have := hexited _ hmem
    contradiction
  rw [State.tickets, htaskQueue, hnone] at hone
  by_contra hne
  rw [if_neg hne] at hone
  exact absurd hone (by simp)

/-- The executor in a state of a run. Two fields are about the end of `deinit`: it is reached, as each step
that is left makes the work less, and then the accepted sessions of each queue are the ones that were
executed and handled once as finished, followed by the ones that were handled once as canceled. -/
structure Executes (s : State) : Prop where
  ticket : ∀ q, (s.taskList q ≠ [] ↔ s.tickets q = 1) ∧ s.tickets q ≤ 1
  served : ∀ (thread q : Nat), s.threads[thread]? = some (.taken q) → (threadSection s thread q).isSome = true
  order : ∀ q, s.accepted q = s.taken q ++ s.canceled q ++ s.taskList q
  stopped : ∀ q, s.canceled q ≠ [] → ∀ thread ∈ s.threads, thread = .exited
  handled : ∀ q x, s.log.count (.handled q x .finished) + s.log.count (.handled q x .canceled)
    ≤ s.log.count (.accepted q x)
  finished : ∀ q x, s.log.count (.handled q x .finished) ≤ s.log.count (.executed q x)
    ∧ s.log.count (.executed q x) ≤ (s.taken q).count x
  rejected : ∀ session queue entryOk scheduleOk, (request s session queue entryOk scheduleOk).2 = -1 →
    (request s session queue entryOk scheduleOk).1.taskList = s.taskList
      ∧ (request s session queue entryOk scheduleOk).1.taskQueue = s.taskQueue
  proceeds : s.terminate = true → ¬ s.Ended → ∃ turn, (step s turn).isSome = true
  shrinks : s.terminate = true → ∀ turn s', step s turn = some s' → s'.terminate = true ∧ s'.work < s.work
  ended : s.Ended → ∀ q, s.accepted q = s.taken q ++ s.canceled q
    ∧ ∀ x, s.log.count (.executed q x) = (s.taken q).count x
      ∧ s.log.count (.handled q x .finished) = (s.taken q).count x
      ∧ s.log.count (.handled q x .canceled) = (s.canceled q).count x
      ∧ s.log.count (.handled q x .finished) + s.log.count (.handled q x .canceled)
        = s.log.count (.accepted q x)

theorem executes_of_reached (h : Reached nthreads s) : Executes s := by
  have hs := h.sound
  constructor
  · intro q
    rw [hs.tickets q]
    by_cases hempty : s.taskList q = [] <;> simp [hempty]
  · intro thread q hx
    exact hs.threadSection_isSome hx
  · exact hs.order
  · intro q hcanceled thread hthread
    by_contra hne
    exact hcanceled (hs.stopped thread hthread hne q)
  · intro q x
    have := hs.accepted_count q x
    omega
  · intro q x
    have := hs.taken q x
    have := hs.executed q x
    omega
  · intro session queue entryOk scheduleOk hret
    rcases request_cases s session queue entryOk scheduleOk with hcase | hcase
    · rw [hcase]
      exact ⟨rfl, rfl⟩
    · rw [hcase] at hret
      contradiction
  · exact hs.exists_step
  · intro hterminate turn s' hstep
    exact work_lt_of_step hterminate hstep
  · intro hend q
    have hempty := hs.taskList_of_ended hend q
    have hnone : ∀ y, y ≠ PoolThread.exited → s.threads.count y = 0 := by
      intro y hy
      rw [List.count_eq_zero]
      intro hmem
      exact hy (hend.2.1 y hmem)
    refine ⟨?_, fun x => ?_⟩
    · rw [hs.order q, hempty, List.append_nil]
    · have hall := hs.accepted_count q x
      have htaken := hs.taken q x
      have hexecuted := hs.executed q x
      rw [hempty, List.count_nil, hnone _ (by simp), hnone _ (by simp)] at hall
      rw [hnone _ (by simp)] at htaken hexecuted
      have hcanceled := count_canceled_eq s q x
      omega

/-- One thread runs the first of three sessions when `deinit` is called. -/
def deinitTurns : List Turn :=
  [.request 10 0 true true, .request 11 0 true true, .request 12 1 true true, .request 13 2 true false, .take 0,
    .threadSection 0, .terminate, .execute 0, .handle 0, .exit 0, .exit 1, .cancel, .cancel]

theorem executes_deinitTurns : ∃ s, Reached 2 s ∧ s.Ended ∧ Executes s ∧ s.taken 0 = [10] ∧ s.canceled 0 = [11]
    ∧ s.canceled 1 = [12] := by
  have hends : (Replay.replay step (init 2) deinitTurns).map (fun s => (s.terminate, s.threads, s.taskQueue, s.log))
      = some (true, [.exited, .exited], [],
          [.accepted 0 10, .accepted 0 11, .accepted 1 12, .rejected 2 13, .taken 0 10, .executed 0 10,
            .handled 0 10 .finished, .handled 1 12 .canceled, .handled 0 11 .canceled]) := by
    decide +kernel
  obtain ⟨s, hreplay, hs⟩ := Option.map_eq_some_iff.1 hends
  simp only [Prod.mk.injEq] at hs
  obtain ⟨hterminate, hthreads, htaskQueue, hlog⟩ := hs
  have hreached : Reached 2 s := Replay.replay_preserves (fun _ _ _ _ h hstep => h.step hstep) .init hreplay
  refine ⟨s, hreached, ⟨hterminate, ?_, htaskQueue⟩, executes_of_reached hreached, ?_, ?_, ?_⟩
  · rw [hthreads]
    decide
  · rw [State.taken, hlog]
    rfl
  · rw [State.canceled, hlog]
    rfl
  · rw [State.canceled, hlog]
    rfl

end WorkflowModel.Kernel.Executor
