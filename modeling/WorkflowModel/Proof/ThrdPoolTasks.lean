import WorkflowModel.Proof.ThrdPoolSteps

/-!
# The tasks of the thread pool

The tasks leave the list in the order in which they went in, first those that the threads run and, at the end, those
that `thrdpool_destroy` hands to `pending`. None of them gets lost, and none is run twice.
-/

namespace WorkflowModel.Kernel.ThrdPool

variable {T : Type*} {s t : State T} {nthreads : Nat}

/-- The pool has not been returned by `thrdpool_create`, and never will be. -/
def Owner.unused : Owner → Bool
  | .creating _ => true
  | .terminating .abandon | .asleep .abandon | .ready .abandon | .joining .abandon | .freed .abandon => true
  | _ => false

/-- `thrdpool_destroy` empties the list, or has emptied it; with what it does with the tasks. -/
def Owner.pending? : Owner → Option Bool
  | .draining pending | .freed (.destroy pending) => some pending
  | _ => none

def State.running (s : State T) : List T := s.threads.filterMap Thread.task?

structure Conserved (s : State T) : Prop where
  order : s.scheduled = s.started ++ s.drained ++ s.taskQueue
  started : s.started.Perm (s.finished ++ s.running)
  undrained : s.owner.pending? = none → s.drained = []
  pended : s.pended = if s.owner.pending? = some true then s.drained else []
  unused : s.owner.unused = true → s.scheduled = []
  freed : ∀ pending, s.owner = .freed (.destroy pending) → s.taskQueue = []

theorem conserved_create (nthreads : Nat) : Conserved (create nthreads : State T) :=
  ⟨rfl, .nil, fun _ => rfl, rfl, fun _ => rfl, by simp [create]⟩

theorem Owner.alone_of_pending? {owner : Owner} {pending : Bool} (h : owner.pending? = some pending) :
    owner.alone = true := by
  cases owner <;> simp_all [Owner.pending?, Owner.alone]

theorem running_set {i : Nat} {a b : Thread T} (hi : s.threads[i]? = some a)
    (hthreads : t.threads = s.threads.set i b) :
    (a.task?.toList ++ t.running).Perm (b.task?.toList ++ s.running) := by
  rw [State.running, State.running, hthreads]
  exact ListSet.filterMap_set_perm Thread.task? hi b

theorem running_eq_of_task? {i : Nat} {a b : Thread T} (hi : s.threads[i]? = some a)
    (hthreads : t.threads = s.threads.set i b) (htask : a.task? = b.task?) : t.running.Perm s.running := by
  have h := running_set hi hthreads
  rw [htask] at h
  exact (List.perm_append_left_iff _).mp h

structure SameLists (s t : State T) : Prop where
  taskQueue : t.taskQueue = s.taskQueue
  scheduled : t.scheduled = s.scheduled
  started : t.started = s.started
  finished : t.finished = s.finished
  drained : t.drained = s.drained
  pended : t.pended = s.pended

/-- A step that starts no task, finishes none and takes none out of the list. -/
theorem Conserved.of_running (h : Conserved s) (hrunning : t.running.Perm s.running) (hlists : SameLists s t)
    (hpending : t.owner.pending? = s.owner.pending?) (hunused : t.owner.unused = true → s.owner.unused = true)
    (hfreed : ∀ pending, t.owner = .freed (.destroy pending) → s.taskQueue = []) : Conserved t := by
  obtain ⟨hqueue, hscheduled, hstarted, hfinished, hdrained, hpended⟩ := hlists
  constructor
  · rw [hscheduled, hstarted, hdrained, hqueue, h.order]
  · rw [hstarted, hfinished]
    exact h.started.trans (hrunning.symm.append_left _)
  · rw [hpending, hdrained]
    exact h.undrained
  · rw [hpended, hpending, hdrained, h.pended]
  · rw [hscheduled]
    exact fun hun => h.unused (hunused hun)
  · rw [hqueue]
    exact hfreed

theorem Conserved.of_owner_eq (h : Conserved s) (hrunning : t.running.Perm s.running)
    (hlists : SameLists s t) (howner : t.owner = s.owner) : Conserved t :=
  h.of_running hrunning hlists (by rw [howner]) (by rw [howner]; exact id) (by rw [howner]; exact h.freed)

theorem Conserved.of_owner {owner : Owner} (h : Conserved s) (hpending : owner.pending? = none)
    (hold : s.owner.pending? = none) (hunused : owner.unused = true → s.owner.unused = true) :
    Conserved { s with owner := owner } := by
  refine h.of_running .rfl ⟨rfl, rfl, rfl, rfl, rfl, rfl⟩ (hpending.trans hold.symm) hunused fun pending hfreed => ?_
  rw [show owner = .freed (.destroy pending) from hfreed] at hpending
  cases hpending

theorem Conserved.signalled (h : Conserved s) (ht : Signalled s t) : Conserved t := by
  cases ht with
  | woken pick hpick =>
      exact h.of_owner_eq (running_eq_of_task? hpick rfl rfl) ⟨rfl, rfl, rfl, rfl, rfl, rfl⟩ rfl
  | lost hnone => exact h

theorem Conserved.increase (h : Conserved s) (ok : Bool) : Conserved (s.increase ok) := by
  cases ok
  · exact h
  · refine h.of_owner_eq (.of_eq ?_) ⟨rfl, rfl, rfl, rfl, rfl, rfl⟩ rfl
    change (s.threads ++ [Thread.ready]).filterMap Thread.task? = s.threads.filterMap Thread.task?
    rw [List.filterMap_append]
    exact List.append_nil _

theorem Conserved.leave (h : Conserved s) {i : Nat} (hi : s.threads[i]? = some .ready) : Conserved (s.leave i) := by
  have hrunning : (s.exchangeTid i).running.Perm s.running := running_eq_of_task? hi rfl rfl
  have hleft : Conserved (s.exchangeTid i) := h.of_owner_eq hrunning ⟨rfl, rfl, rfl, rfl, rfl, rfl⟩ rfl
  obtain ⟨heq, -⟩ | ⟨purpose, hasleep, heq⟩ := leave_cases s i
  · rw [heq]
    exact hleft
  · have howner : (s.exchangeTid i).owner = .asleep purpose := hasleep
    rw [heq]
    refine hleft.of_owner rfl (by rw [howner]; rfl) ?_
    rw [howner]
    cases purpose <;> exact id

theorem Conserved.awaitThreads {purpose : Purpose} (h : Conserved s) (hold : s.owner.pending? = none)
    (hunused : purpose = .abandon → s.owner.unused = true) : Conserved (s.awaitThreads purpose) := by
  unfold State.awaitThreads
  split <;> exact h.of_owner rfl hold fun hun => hunused (by cases purpose <;> first | rfl | cases hun)

theorem Conserved.setTerminate {purpose : Purpose} (h : Conserved s) (howner : s.owner = .terminating purpose) :
    Conserved (s.setTerminate purpose) := by
  have hrunning : (s.threads.map Thread.wake).filterMap Thread.task? = s.threads.filterMap Thread.task? := by
    rw [List.filterMap_map]
    exact List.filterMap_congr fun thread _ => Thread.task?_wake thread
  have hwoken : Conserved { s with terminate := true, threads := s.threads.map Thread.wake } :=
    h.of_owner_eq (.of_eq hrunning) ⟨rfl, rfl, rfl, rfl, rfl, rfl⟩ rfl
  refine hwoken.awaitThreads (by simp [howner, Owner.pending?]) ?_
  rintro rfl
  simp [howner, Owner.unused]

theorem Conserved.createThreads {left : Nat} (h : Conserved s) (howner : s.owner = .creating left) (ok : Bool) :
    Conserved (s.createThreads left ok) := by
  have hpending : s.owner.pending? = none := by rw [howner]; rfl
  have hunused : s.owner.unused = true := by rw [howner]; rfl
  unfold State.createThreads
  split
  next => exact h.of_owner rfl hpending fun _ => hunused
  next =>
    split
    next => exact (h.increase true).of_owner rfl hpending fun _ => hunused
    next => exact h.of_owner rfl hpending fun _ => hunused

theorem Conserved.not_unused (h : Conserved s) {i : Nat} {thread : Thread T} {task : T}
    (hi : s.threads[i]? = some thread) (htask : thread.task? = some task) : s.owner.unused = false := by
  by_contra hunused
  have hscheduled := h.unused (by simpa using hunused)
  have hstarted : s.started = [] := by
    have horder := h.order
    rw [hscheduled] at horder
    simp_all
  have hmem : task ∈ s.finished ++ s.running :=
    List.mem_append_right _ (List.mem_filterMap.mpr ⟨thread, List.mem_of_getElem? hi, htask⟩)
  have hin := h.started.mem_iff.mpr hmem
  rw [hstarted] at hin
  cases hin

theorem Conserved.schedule (h : Conserved s) (hunused : s.owner.unused = false) (hpending : s.owner.pending? = none)
    (task : T) : Conserved (s.schedule task) := by
  constructor
  · change s.scheduled ++ [task] = s.started ++ s.drained ++ (s.taskQueue ++ [task])
    rw [h.order, List.append_assoc _ s.taskQueue]
  · exact h.started
  · exact h.undrained
  · exact h.pended
  · intro hun
    exact absurd (hun.symm.trans hunused) (by decide)
  · intro pending hfreed
    rw [show s.owner = .freed (.destroy pending) from hfreed] at hpending
    cases hpending

theorem Conserved.afterTerminate {purpose : Purpose} (h : Conserved s) (howner : s.owner = .joining purpose) :
    Conserved (s.afterTerminate purpose) := by
  have hpending : s.owner.pending? = none := by rw [howner]; rfl
  have hdrained := h.undrained hpending
  have hpended := h.pended
  rw [hpending, if_neg (by decide)] at hpended
  cases purpose with
  | abandon => exact h.of_owner rfl hpending fun _ => by rw [howner]; rfl
  | destroy pending =>
      refine ⟨h.order, h.started, fun _ => hdrained, ?_, by simp [State.afterTerminate, Owner.unused], by
        simp [State.afterTerminate]⟩
      change s.pended = _
      rw [hpended]
      change [] = if _ then s.drained else []
      rw [hdrained, ite_self]

theorem Conserved.drain {pending : Bool} (h : Conserved s) (howner : s.owner = .draining pending) :
    Conserved (s.drain pending) := by
  have hpended := h.pended
  rw [howner, Owner.pending?] at hpended
  unfold State.drain
  split
  next hqueue =>
    refine h.of_running .rfl ⟨rfl, rfl, rfl, rfl, rfl, rfl⟩ ?_ (by simp [Owner.unused]) fun _ _ => hqueue
    rw [howner]
    rfl
  next task rest hqueue =>
    refine ⟨?_, h.started, ?_, ?_, ?_, ?_⟩
    · change s.scheduled = s.started ++ (s.drained ++ [task]) ++ rest
      rw [h.order, hqueue]
      simp
    · simp [howner, Owner.pending?]
    · change (if pending = true then s.pended ++ [task] else s.pended) =
        if s.owner.pending? = some true then s.drained ++ [task] else []
      rw [howner, Owner.pending?, hpended]
      cases pending <;> rfl
    · simp [howner, Owner.unused]
    · simp [howner]

theorem Counted.pending?_eq_none (h : Counted s) {i : Nat} {thread : Thread T} (hi : s.threads[i]? = some thread)
    (hinLoop : thread.inLoop = true) : s.owner.pending? = none := by
  cases hpending : s.owner.pending? with
  | none => rfl
  | some pending =>
      have halone := Owner.alone_of_pending? hpending
      exact absurd (halone.symm.trans (h.not_alone hi hinLoop)) (by decide)

theorem Conserved.take (h : Conserved s) {i : Nat} {task : T} {rest : List T} (hi : s.threads[i]? = some .ready)
    (hqueue : s.taskQueue = task :: rest) (hpending : s.owner.pending? = none) :
    Conserved { s.setThread i (.running task) with taskQueue := rest, started := s.started ++ [task] } := by
  have hdrained := h.undrained hpending
  constructor
  · change s.scheduled = s.started ++ [task] ++ s.drained ++ rest
    rw [h.order, hdrained, hqueue]
    simp
  · have hrunning : (s.setThread i (.running task)).running.Perm (task :: s.running) :=
      running_set (b := .running task) hi rfl
    calc
      (s.started ++ [task]).Perm (s.finished ++ s.running ++ [task]) := h.started.append_right _
      List.Perm _ (s.finished ++ (task :: s.running)) := by
        rw [List.append_assoc]
        exact (List.perm_append_singleton task s.running).append_left _
      List.Perm _ (s.finished ++ (s.setThread i (.running task)).running) := hrunning.symm.append_left _
  · exact h.undrained
  · exact h.pended
  · exact h.unused
  · intro pending hfreed
    rw [show s.owner = .freed (.destroy pending) from hfreed] at hpending
    cases hpending

theorem Conserved.finish (h : Conserved s) {i : Nat} {task : T} (hi : s.threads[i]? = some (.running task)) :
    Conserved { s.setThread i .ready with finished := s.finished ++ [task] } := by
  refine ⟨h.order, ?_, h.undrained, h.pended, h.unused, h.freed⟩
  have hrunning : (task :: (s.setThread i .ready).running).Perm s.running := running_set (b := .ready) hi rfl
  calc
    s.started.Perm (s.finished ++ s.running) := h.started
    List.Perm _ (s.finished ++ (task :: (s.setThread i .ready).running)) := hrunning.symm.append_left _
    List.Perm _ (s.finished ++ [task] ++ (s.setThread i .ready).running) := by simp

theorem Conserved.effect {turn : Turn T} (h : Conserved s) (hc : Counted s) (he : Effect s turn t) : Conserved t := by
  cases he with
  | schedule task howner =>
      have hnew := h.schedule (by rw [howner]; rfl) (by rw [howner]; rfl) task
      exact hnew.of_owner_eq .rfl ⟨rfl, rfl, rfl, rfl, rfl, rfl⟩ rfl
  | signal pick t hcallers ht =>
      have hnew : Conserved { s with callers := s.callers - 1 } :=
        h.of_owner_eq .rfl ⟨rfl, rfl, rfl, rfl, rfl, rfl⟩ rfl
      exact hnew.signalled ht
  | increase ok howner => exact h.increase ok
  | leave i hi hterminate => exact h.leave hi
  | sleep i hi hterminate hqueue =>
      exact h.of_owner_eq (running_eq_of_task? hi rfl rfl) ⟨rfl, rfl, rfl, rfl, rfl, rfl⟩ rfl
  | take i task rest hi hterminate hqueue => exact h.take hi hqueue (hc.pending?_eq_none hi rfl)
  | spuriousWake i hi => exact h.of_owner_eq (running_eq_of_task? hi rfl rfl) ⟨rfl, rfl, rfl, rfl, rfl, rfl⟩ rfl
  | taskSchedule i task outer hi =>
      have hnew := h.schedule (h.not_unused hi rfl) (hc.pending?_eq_none hi rfl) task
      exact hnew.of_owner_eq (running_eq_of_task? hi rfl rfl) ⟨rfl, rfl, rfl, rfl, rfl, rfl⟩ rfl
  | taskSignal i pick outer t hi ht =>
      have hnew : Conserved (s.setThread i (.running outer)) :=
        h.of_owner_eq (running_eq_of_task? hi rfl rfl) ⟨rfl, rfl, rfl, rfl, rfl, rfl⟩ rfl
      exact hnew.signalled ht
  | taskIncrease i ok outer hi => exact h.increase ok
  | finish i task hi => exact h.finish hi
  | endFirst i hi => exact h.of_owner_eq (running_eq_of_task? hi rfl rfl) ⟨rfl, rfl, rfl, rfl, rfl, rfl⟩ rfl
  | endNext i tid hi htid => exact h.of_owner_eq (running_eq_of_task? hi rfl rfl) ⟨rfl, rfl, rfl, rfl, rfl, rfl⟩ rfl
  | createThreads left ok howner => exact h.createThreads howner ok
  | destroy pending howner hcallers => exact h.of_owner rfl (by rw [howner]; rfl) (by simp [Owner.unused])
  | setTerminate purpose howner => exact h.setTerminate howner
  | ownerSpuriousWake purpose howner =>
      refine h.of_owner rfl (by rw [howner]; rfl) ?_
      rw [howner]
      cases purpose <;> exact id
  | ownerSection purpose howner =>
      refine h.awaitThreads (by rw [howner]; rfl) ?_
      rintro rfl
      rw [howner]
      rfl
  | joinNone purpose howner htid => exact h.afterTerminate howner
  | joinLast purpose tid howner htid hended =>
      have hnew : Conserved { s with joined := s.joined ++ [tid] } :=
        h.of_owner_eq .rfl ⟨rfl, rfl, rfl, rfl, rfl, rfl⟩ rfl
      exact hnew.afterTerminate howner
  | drain pending howner => exact h.drain howner

theorem counted_and_conserved (h : Reached nthreads s) : Counted s ∧ Conserved s := by
  refine Reached.induct (P := fun s => Counted s ∧ Conserved s)
    ⟨counted_create nthreads, conserved_create nthreads⟩ ?_ h
  intro s turn t hs he
  exact ⟨hs.1.effect he, hs.2.effect hs.1 he⟩

/-- At any time the tasks that were scheduled are, in this order, the ones that the threads have started, the ones
that `thrdpool_destroy` has taken out, and the ones that are left in the list; a task that was started is finished
or is run by one thread. When the pool has been destroyed, each task was run once or handed to `pending` once. -/
theorem tasks_of_reached (h : Reached nthreads s) :
    s.scheduled = s.started ++ s.drained ++ s.taskQueue ∧ s.started.Perm (s.finished ++ s.running)
      ∧ ∀ pending, s.owner = .freed (.destroy pending) →
        s.scheduled.Perm (s.finished ++ s.drained) ∧ s.pended = if pending = true then s.drained else [] := by
  obtain ⟨hc, h⟩ := counted_and_conserved h
  refine ⟨h.order, h.started, fun pending hfreed => ⟨?_, ?_⟩⟩
  · have hrunning : s.running = [] := by
      have hzero := hc.alone (by rw [hfreed]; rfl)
      rw [hc.nthreads, List.countP_eq_zero] at hzero
      refine List.filterMap_eq_nil_iff.mpr fun thread hthread => ?_
      have hout := hzero thread hthread
      cases thread <;> first | rfl | exact absurd rfl hout
    have hstarted := h.started
    rw [hrunning, List.append_nil] at hstarted
    rw [h.order, h.freed pending hfreed, List.append_nil]
    exact hstarted.append_right _
  · rw [h.pended, hfreed]
    cases pending <;> rfl

/-- A thread has run one task. Another one was still in the list when the pool was destroyed. -/
def oneDrained : State Nat :=
  { taskQueue := [], nthreads := 0, tid := some 0, terminate := true, threads := [.ended],
    owner := .freed (.destroy true), callers := 0, scheduled := [1, 2], started := [1], finished := [1],
    drained := [2], pended := [2], joined := [0] }

theorem reached_oneDrained : Reached 1 oneDrained :=
  reached_of_turns [.createThreads true, .createThreads true, .schedule 1, .schedule 2, .signal 0,
    .signal 0, .routineSection 0, .destroy true, .setTerminate, .finish 0, .routineSection 0, .threadJoin 0,
    .ownerSection, .ownerJoin, .drain, .drain] rfl

theorem tasks_of_reached_oneDrained : oneDrained.scheduled.Perm (oneDrained.finished ++ oneDrained.drained)
    ∧ oneDrained.pended = oneDrained.drained :=
  (tasks_of_reached reached_oneDrained).2.2 true rfl

/-- While a thread sleeps, each task in the list has a thread of its own that will look for it, or a signal that is
still to come. -/
theorem awake_of_reached (h : Reached nthreads s) (hasleep : ∃ thread ∈ s.threads, thread.isAsleep = true) :
    s.taskQueue.length ≤ s.threads.countP Thread.isReady + s.threads.countP Thread.isSignalling + s.callers := by
  obtain hzero | hle := (counted_and_conserved h).1.tasks
  · obtain ⟨thread, hthread, hasleep⟩ := hasleep
    exact absurd hasleep (by simpa using countP_isAsleep_eq_zero_iff.mp hzero thread hthread)
  · exact hle

/-- Both threads sleep. The signal for the task has not been sent yet. -/
def oneScheduled : State Nat :=
  { (create 2).schedule 7 with nthreads := 2, threads := [.asleep, .asleep], owner := .created, callers := 1 }

theorem awake_of_reached_oneScheduled : 1 ≤ oneScheduled.callers := by
  have hreached : Reached 2 oneScheduled :=
    reached_of_turns [.createThreads true, .createThreads true, .createThreads true, .routineSection 0,
      .routineSection 1, .schedule 7] rfl
  exact awake_of_reached hreached ⟨.asleep, List.mem_cons_self, rfl⟩

end WorkflowModel.Kernel.ThrdPool
