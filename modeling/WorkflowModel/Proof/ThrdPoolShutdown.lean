import WorkflowModel.Proof.ThrdPoolJoins
import WorkflowModel.Lib.Progress

/-!
# The shutdown of the thread pool comes to an end

Once the pool is to be terminated, every step of a thread or of the owner brings the pool closer to its end, unless a
task calls the pool again or a thread wakes up without a signal. As long as the pool has not been freed, one of these
steps can be made.
-/

namespace WorkflowModel.Kernel.ThrdPool

variable {T : Type*} {s t : State T} {nthreads : Nat}

/-- A step that is neither a call of the pool nor a spurious wake-up. -/
def Turn.quiet : Turn T → Bool
  | .signal _ | .routineSection _ | .taskSignal _ _ | .finish _ | .threadJoin _ => true
  | .setTerminate | .ownerSection | .ownerJoin | .drain => true
  | _ => false

def Owner.stopping : Owner → Bool
  | .creating _ | .created => false
  | _ => true

/-- The steps that a thread may still make until it has ended, when there is no task left. -/
def Thread.work : Thread T → Nat
  | .signalling _ => 7
  | .running _ => 5
  | .ready => 3
  | .asleep => 2
  | .leaving _ => 1
  | .ended => 0

/-- The broadcast may give each of the threads one more step. -/
def Owner.work (threads : Nat) : Owner → Nat
  | .terminating _ => threads + 5
  | .ready _ => 4
  | .asleep _ => 3
  | .joining _ => 2
  | .draining _ => 1
  | _ => 0

def State.work (s : State T) : Nat :=
  (s.threads.map Thread.work).sum + 3 * s.taskQueue.length + s.owner.work s.threads.length

theorem work_set {i : Nat} {a b : Thread T} (hi : s.threads[i]? = some a) (hthreads : t.threads = s.threads.set i b)
    (howner : t.owner = s.owner) :
    t.work + a.work + 3 * s.taskQueue.length = s.work + b.work + 3 * t.taskQueue.length := by
  have hsum := ListSet.sum_map_set_add Thread.work hi b
  unfold State.work
  rw [howner, hthreads, List.length_set]
  omega

theorem work_lt_of_set {i : Nat} {a b : Thread T} (hi : s.threads[i]? = some a)
    (hthreads : t.threads = s.threads.set i b) (howner : t.owner = s.owner)
    (hlt : b.work + 3 * t.taskQueue.length < a.work + 3 * s.taskQueue.length) : t.work < s.work := by
  have hwork := work_set hi hthreads howner
  omega

theorem work_owner (hthreads : t.threads = s.threads) (hqueue : t.taskQueue = s.taskQueue) :
    t.work + s.owner.work s.threads.length = s.work + t.owner.work s.threads.length := by
  unfold State.work
  rw [hthreads, hqueue]
  omega

theorem work_lt_of_owner (hthreads : t.threads = s.threads) (hqueue : t.taskQueue = s.taskQueue)
    (hlt : t.owner.work s.threads.length < s.owner.work s.threads.length) : t.work < s.work := by
  have hwork := work_owner hthreads hqueue
  omega

theorem Signalled.work_le (h : Signalled s t) : t.work ≤ s.work + 1 := by
  cases h with
  | woken pick hpick =>
      have hwork := work_set (t := s.setThread pick .ready) hpick rfl rfl
      simp only [Thread.work, State.taskQueue_setThread] at hwork
      omega
  | lost hnone => omega

theorem work_wake_le (threads : List (Thread T)) :
    ((threads.map Thread.wake).map Thread.work).sum ≤ (threads.map Thread.work).sum + threads.length := by
  induction threads with
  | nil => simp
  | cons thread threads ih =>
      have hone : thread.wake.work ≤ thread.work + 1 := by cases thread <;> simp [Thread.wake, Thread.work]
      simp only [List.map_cons, List.sum_cons, List.length_cons]
      omega

theorem work_leave_lt {i : Nat} (hi : s.threads[i]? = some .ready) : (s.leave i).work < s.work := by
  have hleft := work_set (t := s.exchangeTid i) hi rfl rfl
  have hqueue : (s.exchangeTid i).taskQueue = s.taskQueue := rfl
  simp only [Thread.work, hqueue] at hleft
  obtain ⟨heq, -⟩ | ⟨purpose, hasleep, heq⟩ := leave_cases s i
  · rw [heq]
    omega
  · have hwork := work_owner (s := s.exchangeTid i) (t := s.leave i) (by rw [heq]) (by rw [heq])
    have howner : (s.leave i).owner = .ready purpose := by rw [heq]
    rw [howner, show (s.exchangeTid i).owner = .asleep purpose from hasleep] at hwork
    simp only [Owner.work] at hwork
    omega

theorem work_awaitThreads_le (s : State T) (purpose : Purpose) :
    (s.awaitThreads purpose).work + s.owner.work s.threads.length ≤ s.work + 3 := by
  have hlists : (s.awaitThreads purpose).threads = s.threads ∧ (s.awaitThreads purpose).taskQueue = s.taskQueue
      ∧ (s.awaitThreads purpose).owner.work s.threads.length ≤ 3 := by
    unfold State.awaitThreads
    split <;> exact ⟨rfl, rfl, by simp [Owner.work]⟩
  have hwork := work_owner hlists.1 hlists.2.1
  omega

theorem work_afterTerminate_lt {purpose : Purpose} (howner : s.owner = .joining purpose) (joined : List Nat) :
    ({ s with joined := joined }.afterTerminate purpose).work < s.work := by
  cases purpose with
  | abandon => exact work_lt_of_owner rfl rfl (by rw [howner]; exact Nat.zero_lt_succ _)
  | destroy pending => exact work_lt_of_owner rfl rfl (by rw [howner]; exact Nat.lt_succ_self _)

/-- What the broadcast adds is no more than what the owner has left. -/
theorem work_setTerminate_lt {purpose : Purpose} (howner : s.owner = .terminating purpose) :
    (s.setTerminate purpose).work < s.work := by
  obtain ⟨woken, hwoken⟩ : ∃ woken, woken = { s with terminate := true, threads := s.threads.map Thread.wake } :=
    ⟨_, rfl⟩
  have hset : s.setTerminate purpose = woken.awaitThreads purpose := by rw [hwoken]; rfl
  have hbroadcast : woken.work ≤ s.work + s.threads.length := by
    have hwake := work_wake_le s.threads
    simp only [hwoken, State.work, List.length_map]
    omega
  have hle := work_awaitThreads_le woken purpose
  rw [show woken.owner = .terminating purpose by rw [hwoken, howner],
    show woken.threads.length = s.threads.length by simp [hwoken]] at hle
  simp only [Owner.work] at hle
  rw [hset]
  omega

theorem work_lt_of_effect {turn : Turn T} (hc : Counted s) (hstopping : s.owner.stopping = true)
    (hquiet : turn.quiet = true) (he : Effect s turn t) : t.work < s.work := by
  cases he with
  | schedule task howner => cases hquiet
  | signal pick t hcallers ht =>
      have hzero := hc.callers (by rintro howner; rw [howner] at hstopping; cases hstopping)
      omega
  | increase ok howner => cases hquiet
  | leave i hi hterminate => exact work_leave_lt hi
  | sleep i hi hterminate hqueue => exact work_lt_of_set hi rfl rfl (by simp [Thread.work])
  | take i task rest hi hterminate hqueue =>
      refine work_lt_of_set (b := .running task) hi rfl rfl ?_
      simp only [Thread.work, hqueue, List.length_cons]
      omega
  | spuriousWake i hi => cases hquiet
  | taskSchedule i task outer hi => cases hquiet
  | taskSignal i pick outer t hi ht =>
      have hle := ht.work_le
      have hwork := work_set (t := s.setThread i (.running outer)) hi rfl rfl
      simp only [Thread.work, State.taskQueue_setThread] at hwork
      omega
  | taskIncrease i ok outer hi => cases hquiet
  | finish i task hi => exact work_lt_of_set (b := .ready) hi rfl rfl (by simp [Thread.work])
  | endFirst i hi => exact work_lt_of_set hi rfl rfl (by simp [Thread.work])
  | endNext i tid hi htid => exact work_lt_of_set (b := .ended) hi rfl rfl (by simp [Thread.work])
  | createThreads left ok howner => cases hquiet
  | destroy pending howner hcallers => cases hquiet
  | setTerminate purpose howner => exact work_setTerminate_lt howner
  | ownerSpuriousWake purpose howner => cases hquiet
  | ownerSection purpose howner =>
      have hle := work_awaitThreads_le s purpose
      simp only [howner, Owner.work] at hle
      omega
  | joinNone purpose howner htid => exact work_afterTerminate_lt howner s.joined
  | joinLast purpose tid howner htid hended => exact work_afterTerminate_lt howner _
  | drain pending howner =>
      unfold State.drain
      split
      next => exact work_lt_of_owner rfl rfl (by rw [howner]; exact Nat.zero_lt_one)
      next task rest hqueue =>
        simp only [State.work, hqueue, List.length_cons]
        omega

theorem stopping_awaitThreads (s : State T) (purpose : Purpose) : (s.awaitThreads purpose).owner.stopping = true := by
  unfold State.awaitThreads
  split <;> rfl

theorem stopping_of_effect {turn : Turn T} (h : s.owner.stopping = true) (hquiet : turn.quiet = true)
    (he : Effect s turn t) : t.owner.stopping = true := by
  cases he with
  | schedule task howner => cases hquiet
  | signal pick t hcallers ht => exact ht.same.2.2.1 ▸ h
  | increase ok howner => cases hquiet
  | leave i hi hterminate =>
      obtain ⟨heq, -⟩ | ⟨purpose, hasleep, heq⟩ := leave_cases s i
      · rw [heq]
        exact h
      · rw [heq]
        rfl
  | sleep i hi hterminate hqueue => exact h
  | take i task rest hi hterminate hqueue => exact h
  | spuriousWake i hi => cases hquiet
  | taskSchedule i task outer hi => cases hquiet
  | taskSignal i pick outer t hi ht => exact ht.same.2.2.1 ▸ h
  | taskIncrease i ok outer hi => cases hquiet
  | finish i task hi => exact h
  | endFirst i hi => exact h
  | endNext i tid hi htid => exact h
  | createThreads left ok howner => cases hquiet
  | destroy pending howner hcallers => cases hquiet
  | setTerminate purpose howner => exact stopping_awaitThreads _ purpose
  | ownerSpuriousWake purpose howner => cases hquiet
  | ownerSection purpose howner => exact stopping_awaitThreads _ purpose
  | joinNone purpose howner htid => cases purpose <;> rfl
  | joinLast purpose tid howner htid hended => cases purpose <;> rfl
  | drain pending howner =>
      unfold State.drain
      split
      next => rfl
      next => exact h

theorem exists_signal (s : State T) : ∃ pick, (s.signal pick).isSome = true := by
  by_cases hany : s.threads.any Thread.isAsleep = true
  · obtain ⟨thread, hthread, hasleep⟩ := List.any_eq_true.mp hany
    obtain ⟨pick, hpick⟩ := List.getElem?_of_mem hthread
    cases thread with
    | asleep => exact ⟨pick, by simp [State.signal, hpick]⟩
    | _ => cases hasleep
  · refine ⟨0, ?_⟩
    unfold State.signal
    split
    next => rfl
    next => rw [if_neg hany]; rfl

theorem exists_quiet_step_of_inLoop {i : Nat} {thread : Thread T} (hi : s.threads[i]? = some thread)
    (hinLoop : thread.inLoop = true) (hawake : thread.isAsleep = false) :
    ∃ turn : Turn T, turn.quiet = true ∧ (step s turn).isSome = true := by
  cases thread with
  | ready => exact ⟨.routineSection i, rfl, by simp [step, hi]⟩
  | asleep => cases hawake
  | running task => exact ⟨.finish i, rfl, by simp [step, hi]⟩
  | signalling outer =>
      obtain ⟨pick, hpick⟩ := exists_signal (s.setThread i (.running outer))
      exact ⟨.taskSignal i pick, rfl, by simpa [step, hi] using hpick⟩
  | leaving tid => cases hinLoop
  | ended => cases hinLoop

/-- Either the last thread has ended, or there is a first one of those that have left and not ended. -/
theorem Chained.exists_join {leaving ended : List Nat} {purpose : Purpose} (h : Chained s leaving ended)
    (howner : s.owner = .joining purpose) : ∃ turn : Turn T, turn.quiet = true ∧ (step s turn).isSome = true := by
  cases hleaving : leaving.getLast? with
  | none =>
      obtain rfl := List.getLast?_eq_none_iff.mp hleaving
      refine ⟨.ownerJoin, rfl, ?_⟩
      cases ended with
      | nil =>
          have htid : s.tid = none := h.tid
          simp [step, howner, htid]
      | cons j rest =>
          have htid : s.tid = some j := h.tid
          have hj := h.done j List.mem_cons_self
          simp [step, howner, htid, State.join, hj]
  | some i =>
      obtain ⟨before, rfl⟩ := List.getLast?_eq_some_iff.mp hleaving
      have hi := (linked_of_append h.linked).1
      rw [List.nil_append] at hi
      refine ⟨.threadJoin i, rfl, ?_⟩
      cases ended with
      | nil => simp [step, show s.threads[i]? = some (.leaving none) from hi]
      | cons j rest =>
          have hj := h.done j List.mem_cons_self
          simp [step, show s.threads[i]? = some (.leaving (some j)) from hi, State.join, hj]

theorem exists_quiet_step (h : Reached nthreads s) (hstopping : s.owner.stopping = true)
    (hnot : ¬ ∃ purpose, s.owner = .freed purpose) :
    ∃ turn : Turn T, turn.quiet = true ∧ (step s turn).isSome = true := by
  have hc := (counted_and_conserved h).1
  cases howner : s.owner with
  | creating left => rw [howner] at hstopping; cases hstopping
  | created => rw [howner] at hstopping; cases hstopping
  | terminating purpose => exact ⟨.setTerminate, rfl, by simp [step, howner]⟩
  | asleep purpose =>
      have hpos := hc.owner purpose howner
      rw [hc.nthreads, List.countP_pos_iff] at hpos
      obtain ⟨thread, hthread, hinLoop⟩ := hpos
      obtain ⟨i, hi⟩ := List.getElem?_of_mem hthread
      have hterminate : s.terminate = true := by rw [hc.terminate, howner]; rfl
      exact exists_quiet_step_of_inLoop hi hinLoop
        (countP_isAsleep_eq_zero_iff.mp (hc.sleepers hterminate) thread hthread)
  | ready purpose => exact ⟨.ownerSection, rfl, by simp [step, howner]⟩
  | joining purpose =>
      obtain ⟨leaving, ended, hchain⟩ := chained_of_reached h
      exact hchain.exists_join howner
  | draining pending => exact ⟨.drain, rfl, by simp [step, howner]⟩
  | freed purpose => exact absurd ⟨purpose, howner⟩ hnot

theorem decreases_work : Replay.Decreases step (fun s : State T => Reached nthreads s ∧ s.owner.stopping = true)
    (fun turn => turn.quiet = true) State.work where
  keeps := fun _ _ _ ⟨h, hstopping⟩ hquiet hstep =>
    ⟨.step h hstep, stopping_of_effect hstopping hquiet (effect_of_step hstep)⟩
  lt := fun _ _ _ ⟨h, hstopping⟩ hquiet hstep =>
    work_lt_of_effect (counted_and_conserved h).1 hstopping hquiet (effect_of_step hstep)

/-- From the call of `thrdpool_destroy` on, or from the failure of `thrdpool_create`: if the tasks that still run
return without another call of the pool, the number of steps is bounded, and as long as the pool has not been freed
there is a next one. -/
theorem shutdown_of_stopping (h : Reached nthreads s) (hstopping : s.owner.stopping = true) (turns : List (Turn T))
    (hquiet : ∀ turn ∈ turns, turn.quiet = true) (hturns : Replay.replay step s turns = some t) :
    turns.length ≤ s.work
      ∧ ((∀ turn : Turn T, turn.quiet = true → step t turn = none) → ∃ purpose, t.owner = .freed purpose) := by
  constructor
  · have hle := decreases_work.length_add_le ⟨h, hstopping⟩ hquiet hturns
    omega
  · exact decreases_work.final_of_stuck (fun _ hs hnot => exists_quiet_step hs.1 hs.2 hnot) ⟨h, hstopping⟩ hquiet
      hturns

def oneTerminating : State Nat :=
  { create 1 with nthreads := 1, threads := [.asleep], owner := .terminating (.destroy false) }

def oneTerminatingTurns : List (Turn Nat) :=
  [.setTerminate, .routineSection 0, .threadJoin 0, .ownerSection, .ownerJoin, .drain]

theorem shutdown_of_oneTerminating : oneTerminatingTurns.length ≤ oneTerminating.work := by
  have hreached : Reached 1 oneTerminating :=
    reached_of_turns [.createThreads true, .createThreads true, .routineSection 0, .destroy false] rfl
  exact (shutdown_of_stopping hreached rfl oneTerminatingTurns (by decide) rfl).1

end WorkflowModel.Kernel.ThrdPool
