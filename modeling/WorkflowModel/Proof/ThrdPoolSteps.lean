import WorkflowModel.Kernel.ThrdPool
import WorkflowModel.Lib.ListSet
import WorkflowModel.Lib.Replay

/-!
# What a step of the thread pool does

Every step is one of a few effects on the pool. The threads that are still in the loop are the ones that `nthreads`
counts; a thread that sleeps leaves no task without a thread that is awake, or a signal that is on its way.
-/

namespace WorkflowModel.Kernel.ThrdPool

variable {T : Type*} {s : State T} {nthreads : Nat}

/-- A signal wakes a sleeping thread, or there is none. -/
inductive Signalled (s : State T) : State T → Prop where
  | woken (pick : Nat) (hpick : s.threads[pick]? = some .asleep) : Signalled s (s.setThread pick .ready)
  | lost (hnone : ∀ thread ∈ s.threads, thread.isAsleep = false) : Signalled s s

theorem signalled_of_signal {s' : State T} {pick : Nat} (h : s.signal pick = some s') : Signalled s s' := by
  unfold State.signal at h
  split at h
  next hpick =>
    obtain rfl := Option.some.inj h
    exact .woken pick hpick
  next =>
    split at h
    next => cases h
    next hnone =>
      obtain rfl := Option.some.inj h
      refine .lost fun thread hthread => ?_
      by_contra hasleep
      exact hnone (List.any_eq_true.mpr ⟨thread, hthread, by simpa using hasleep⟩)

inductive Effect (s : State T) : Turn T → State T → Prop where
  | schedule (task : T) (howner : s.owner = .created) :
      Effect s (.schedule task) { s.schedule task with callers := s.callers + 1 }
  | signal (pick : Nat) (t : State T) (hcallers : 0 < s.callers)
      (ht : Signalled { s with callers := s.callers - 1 } t) : Effect s (.signal pick) t
  | increase (ok : Bool) (howner : s.owner = .created) : Effect s (.increase ok) (s.increase ok)
  | leave (i : Nat) (hi : s.threads[i]? = some .ready) (hterminate : s.terminate = true) :
      Effect s (.routineSection i) (s.leave i)
  | sleep (i : Nat) (hi : s.threads[i]? = some .ready) (hterminate : s.terminate = false) (hqueue : s.taskQueue = []) :
      Effect s (.routineSection i) (s.setThread i .asleep)
  | take (i : Nat) (task : T) (rest : List T) (hi : s.threads[i]? = some .ready) (hterminate : s.terminate = false)
      (hqueue : s.taskQueue = task :: rest) :
      Effect s (.routineSection i)
        { s.setThread i (.running task) with taskQueue := rest, started := s.started ++ [task] }
  | spuriousWake (i : Nat) (hi : s.threads[i]? = some .asleep) : Effect s (.spuriousWake i) (s.setThread i .ready)
  | taskSchedule (i : Nat) (task outer : T) (hi : s.threads[i]? = some (.running outer)) :
      Effect s (.taskSchedule i task) ((s.schedule task).setThread i (.signalling outer))
  | taskSignal (i pick : Nat) (outer : T) (t : State T) (hi : s.threads[i]? = some (.signalling outer))
      (ht : Signalled (s.setThread i (.running outer)) t) : Effect s (.taskSignal i pick) t
  | taskIncrease (i : Nat) (ok : Bool) (outer : T) (hi : s.threads[i]? = some (.running outer)) :
      Effect s (.taskIncrease i ok) (s.increase ok)
  | finish (i : Nat) (task : T) (hi : s.threads[i]? = some (.running task)) :
      Effect s (.finish i) { s.setThread i .ready with finished := s.finished ++ [task] }
  | endFirst (i : Nat) (hi : s.threads[i]? = some (.leaving none)) : Effect s (.threadJoin i) (s.setThread i .ended)
  | endNext (i tid : Nat) (hi : s.threads[i]? = some (.leaving (some tid))) (htid : s.threads[tid]? = some .ended) :
      Effect s (.threadJoin i) { s.setThread i .ended with joined := s.joined ++ [tid] }
  | createThreads (left : Nat) (ok : Bool) (howner : s.owner = .creating left) :
      Effect s (.createThreads ok) (s.createThreads left ok)
  | destroy (pending : Bool) (howner : s.owner = .created) (hcallers : s.callers = 0) :
      Effect s (.destroy pending) { s with owner := .terminating (.destroy pending) }
  | setTerminate (purpose : Purpose) (howner : s.owner = .terminating purpose) :
      Effect s .setTerminate (s.setTerminate purpose)
  | ownerSpuriousWake (purpose : Purpose) (howner : s.owner = .asleep purpose) :
      Effect s .ownerSpuriousWake { s with owner := .ready purpose }
  | ownerSection (purpose : Purpose) (howner : s.owner = .ready purpose) :
      Effect s .ownerSection (s.awaitThreads purpose)
  | joinNone (purpose : Purpose) (howner : s.owner = .joining purpose) (htid : s.tid = none) :
      Effect s .ownerJoin (s.afterTerminate purpose)
  | joinLast (purpose : Purpose) (tid : Nat) (howner : s.owner = .joining purpose) (htid : s.tid = some tid)
      (hended : s.threads[tid]? = some .ended) :
      Effect s .ownerJoin ({ s with joined := s.joined ++ [tid] }.afterTerminate purpose)
  | drain (pending : Bool) (howner : s.owner = .draining pending) : Effect s .drain (s.drain pending)

theorem join_eq_some {s' : State T} {tid : Nat} (h : s.join tid = some s') :
    s.threads[tid]? = some .ended ∧ s' = { s with joined := s.joined ++ [tid] } := by
  unfold State.join at h
  split at h
  next htid => exact ⟨htid, (Option.some.inj h).symm⟩
  next => cases h

theorem effect_routineSection {i : Nat} (hi : s.threads[i]? = some .ready) :
    Effect s (.routineSection i) (s.routineSection i) := by
  unfold State.routineSection
  split
  next hterminate => exact .leave i hi hterminate
  next hterminate =>
    have hterminate : s.terminate = false := by simpa using hterminate
    split
    next hqueue => exact .sleep i hi hterminate hqueue
    next task rest hqueue => exact .take i task rest hi hterminate hqueue

theorem effect_of_step {s' : State T} {turn : Turn T} (h : step s turn = some s') : Effect s turn s' := by
  cases turn with
  | schedule task =>
      obtain ⟨howner, h⟩ := Option.ite_none_right_eq_some.mp h
      obtain rfl := Option.some.inj h
      exact .schedule task howner
  | signal pick =>
      obtain ⟨hcallers, h⟩ := Option.ite_none_right_eq_some.mp h
      exact .signal pick s' hcallers (signalled_of_signal h)
  | increase ok =>
      obtain ⟨howner, h⟩ := Option.ite_none_right_eq_some.mp h
      obtain rfl := Option.some.inj h
      exact .increase ok howner
  | routineSection i =>
      simp only [step] at h
      split at h
      next hi =>
        obtain rfl := Option.some.inj h
        exact effect_routineSection hi
      next => cases h
  | spuriousWake i =>
      simp only [step] at h
      split at h
      next hi =>
        obtain rfl := Option.some.inj h
        exact .spuriousWake i hi
      next => cases h
  | taskSchedule i task =>
      simp only [step] at h
      split at h
      next outer hi =>
        obtain rfl := Option.some.inj h
        exact .taskSchedule i task outer hi
      next => cases h
  | taskSignal i pick =>
      simp only [step] at h
      split at h
      next outer hi => exact .taskSignal i pick outer s' hi (signalled_of_signal h)
      next => cases h
  | taskIncrease i ok =>
      simp only [step] at h
      split at h
      next outer hi =>
        obtain rfl := Option.some.inj h
        exact .taskIncrease i ok outer hi
      next => cases h
  | finish i =>
      simp only [step] at h
      split at h
      next task hi =>
        obtain rfl := Option.some.inj h
        exact .finish i task hi
      next => cases h
  | threadJoin i =>
      simp only [step] at h
      split at h
      next hi =>
        obtain rfl := Option.some.inj h
        exact .endFirst i hi
      next tid hi =>
        obtain ⟨t, hjoin, h⟩ := Option.bind_eq_some_iff.mp h
        obtain ⟨htid, rfl⟩ := join_eq_some hjoin
        obtain rfl := Option.some.inj h
        exact .endNext i tid hi htid
      next => cases h
  | createThreads ok =>
      simp only [step] at h
      split at h
      next left howner =>
        obtain rfl := Option.some.inj h
        exact .createThreads left ok howner
      next => cases h
  | destroy pending =>
      obtain ⟨⟨howner, hcallers⟩, h⟩ := Option.ite_none_right_eq_some.mp h
      obtain rfl := Option.some.inj h
      exact .destroy pending howner hcallers
  | setTerminate =>
      simp only [step] at h
      split at h
      next purpose howner =>
        obtain rfl := Option.some.inj h
        exact .setTerminate purpose howner
      next => cases h
  | ownerSpuriousWake =>
      simp only [step] at h
      split at h
      next purpose howner =>
        obtain rfl := Option.some.inj h
        exact .ownerSpuriousWake purpose howner
      next => cases h
  | ownerSection =>
      simp only [step] at h
      split at h
      next purpose howner =>
        obtain rfl := Option.some.inj h
        exact .ownerSection purpose howner
      next => cases h
  | ownerJoin =>
      simp only [step] at h
      split at h
      next purpose howner htid =>
        obtain rfl := Option.some.inj h
        exact .joinNone purpose howner htid
      next purpose tid howner htid =>
        obtain ⟨t, hjoin, h⟩ := Option.bind_eq_some_iff.mp h
        obtain ⟨hended, rfl⟩ := join_eq_some hjoin
        obtain rfl := Option.some.inj h
        exact .joinLast purpose tid howner htid hended
      next => cases h
  | drain =>
      simp only [step] at h
      split at h
      next pending howner =>
        obtain rfl := Option.some.inj h
        exact .drain pending howner
      next => cases h

theorem Reached.induct {P : State T → Prop} (hcreate : P (create nthreads))
    (heffect : ∀ s turn s', P s → Effect s turn s' → P s') (h : Reached nthreads s) : P s := by
  induction h with
  | init => exact hcreate
  | step _ hstep ih => exact heffect _ _ _ ih (effect_of_step hstep)

theorem reached_of_turns (turns : List (Turn T)) (h : Replay.replay step (create nthreads) turns = some s) :
    Reached nthreads s :=
  Replay.replay_preserves (fun _ _ _ _ hs hstep => .step hs hstep) .init h

namespace Thread

def isReady : Thread T → Bool
  | .ready => true
  | _ => false

def isSignalling : Thread T → Bool
  | .signalling _ => true
  | _ => false

def inLoop : Thread T → Bool
  | .leaving _ => false
  | .ended => false
  | _ => true

def task? : Thread T → Option T
  | .running task => some task
  | .signalling task => some task
  | _ => none

@[simp] theorem isAsleep_wake (thread : Thread T) : thread.wake.isAsleep = false := by cases thread <;> rfl

@[simp] theorem inLoop_wake (thread : Thread T) : thread.wake.inLoop = thread.inLoop := by cases thread <;> rfl

@[simp] theorem task?_wake (thread : Thread T) : thread.wake.task? = thread.task? := by cases thread <;> rfl

end Thread

namespace Owner

/-- `terminate` is set. -/
def terminated : Owner → Bool
  | .creating _ | .created | .terminating _ => false
  | _ => true

def alone : Owner → Bool
  | .joining _ | .draining _ | .freed _ => true
  | _ => false

end Owner

/-- The counters agree with the threads, and what waits is not waiting in vain: a sleeping thread leaves no task
without another thread that will look for it, and the owner sleeps only while there is a thread to wake it. -/
structure Counted (s : State T) : Prop where
  nthreads : s.nthreads = s.threads.countP Thread.inLoop
  terminate : s.terminate = s.owner.terminated
  sleepers : s.terminate = true → s.threads.countP Thread.isAsleep = 0
  tasks : s.threads.countP Thread.isAsleep = 0
    ∨ s.taskQueue.length ≤ s.threads.countP Thread.isReady + s.threads.countP Thread.isSignalling + s.callers
  owner : ∀ purpose, s.owner = .asleep purpose → 0 < s.nthreads
  alone : s.owner.alone = true → s.nthreads = 0
  callers : s.owner ≠ .created → s.callers = 0

section

variable {t : State T} {i : Nat}

@[simp] theorem State.threads_setThread (thread : Thread T) :
    (s.setThread i thread).threads = s.threads.set i thread := rfl

@[simp] theorem State.taskQueue_setThread (thread : Thread T) : (s.setThread i thread).taskQueue = s.taskQueue := rfl

@[simp] theorem State.nthreads_setThread (thread : Thread T) : (s.setThread i thread).nthreads = s.nthreads := rfl

@[simp] theorem State.terminate_setThread (thread : Thread T) : (s.setThread i thread).terminate = s.terminate := rfl

@[simp] theorem State.owner_setThread (thread : Thread T) : (s.setThread i thread).owner = s.owner := rfl

@[simp] theorem State.callers_setThread (thread : Thread T) : (s.setThread i thread).callers = s.callers := rfl

@[simp] theorem State.threads_schedule (task : T) : (s.schedule task).threads = s.threads := rfl

theorem countP_isAsleep_eq_zero_iff :
    s.threads.countP Thread.isAsleep = 0 ↔ ∀ thread ∈ s.threads, thread.isAsleep = false := by
  simp [List.countP_eq_zero]

/-- A signal that is sent may be one that a task was counting on. The thread that it wakes takes its place. -/
theorem Signalled.tasks (h : Signalled s t)
    (htasks : s.threads.countP Thread.isAsleep = 0
      ∨ s.taskQueue.length
        ≤ s.threads.countP Thread.isReady + s.threads.countP Thread.isSignalling + s.callers + 1) :
    t.threads.countP Thread.isAsleep = 0
      ∨ t.taskQueue.length
        ≤ t.threads.countP Thread.isReady + t.threads.countP Thread.isSignalling + t.callers := by
  cases h with
  | woken pick hpick =>
      have hasleep := ListSet.countP_set_add Thread.isAsleep hpick .ready
      have hready := ListSet.countP_set_add Thread.isReady hpick .ready
      have hsignalling := ListSet.countP_set_add Thread.isSignalling hpick .ready
      simp only [Thread.isAsleep, Thread.isReady, Thread.isSignalling, Bool.false_eq_true, ↓reduceIte]
        at hasleep hready hsignalling
      simp only [State.threads_setThread, State.taskQueue_setThread, State.callers_setThread]
      omega
  | lost hnone => exact Or.inl (countP_isAsleep_eq_zero_iff.mpr hnone)

theorem Signalled.same (h : Signalled s t) :
    t.nthreads = s.nthreads ∧ t.terminate = s.terminate ∧ t.owner = s.owner ∧ t.callers = s.callers
      ∧ t.threads.countP Thread.inLoop = s.threads.countP Thread.inLoop
      ∧ t.threads.countP Thread.isAsleep ≤ s.threads.countP Thread.isAsleep := by
  cases h with
  | woken pick hpick =>
      have hasleep := ListSet.countP_set_add Thread.isAsleep hpick .ready
      have hinLoop := ListSet.countP_set_add Thread.inLoop hpick .ready
      refine ⟨rfl, rfl, rfl, rfl, ?_, ?_⟩ <;> simp [Thread.isAsleep, Thread.inLoop] at * <;> omega
  | lost hnone => simp

end

theorem counted_create (nthreads : Nat) : Counted (create nthreads : State T) where
  nthreads := rfl
  terminate := rfl
  sleepers := by simp [create]
  tasks := Or.inl rfl
  owner := by simp [create]
  alone := by simp [create]
  callers := by simp [create]

theorem Counted.createThread (h : Counted s) (halone : s.owner.alone = false) : Counted s.createThread := by
  have hcount : ∀ p : Thread T → Bool,
      s.createThread.threads.countP p = s.threads.countP p + if p .ready = true then 1 else 0 := by
    intro p
    simp [State.createThread, List.countP_append, List.countP_cons]
  constructor
  · rw [hcount, ← h.nthreads]
    rfl
  · exact h.terminate
  · rw [hcount]
    exact h.sleepers
  · have htasks := h.tasks
    simp only [hcount, Thread.isAsleep, Thread.isReady, Thread.isSignalling, Bool.false_eq_true, ↓reduceIte]
    change _ ∨ s.taskQueue.length ≤ _ + s.callers
    omega
  · exact fun _ _ => Nat.succ_pos _
  · intro hfalse
    exact absurd (hfalse.symm.trans halone) (by decide)
  · exact h.callers

/-- The step is one of a thread that stays in its loop, or stays out of it. -/
theorem Counted.of_inLoop {t : State T} (h : Counted s) (hnthreads : t.nthreads = s.nthreads)
    (hterminate : t.terminate = s.terminate) (howner : t.owner = s.owner) (hcallers : t.callers ≤ s.callers)
    (hinLoop : t.threads.countP Thread.inLoop = s.threads.countP Thread.inLoop)
    (hasleep : s.terminate = true → t.threads.countP Thread.isAsleep ≤ s.threads.countP Thread.isAsleep)
    (htasks : t.threads.countP Thread.isAsleep = 0
      ∨ t.taskQueue.length ≤ t.threads.countP Thread.isReady + t.threads.countP Thread.isSignalling + t.callers) :
    Counted t := by
  constructor
  · rw [hnthreads, hinLoop, h.nthreads]
  · rw [hterminate, howner, h.terminate]
  · intro hterm
    rw [hterminate] at hterm
    exact Nat.le_zero.mp (h.sleepers hterm ▸ hasleep hterm)
  · exact htasks
  · rw [hnthreads, howner]
    exact h.owner
  · rw [hnthreads, howner]
    exact h.alone
  · intro hne
    rw [howner] at hne
    exact Nat.le_zero.mp (h.callers hne ▸ hcallers)

/-- One thread goes from `a` to `b`, and stays in its loop or out of it. -/
theorem Counted.of_set {t : State T} {i : Nat} {a b : Thread T} (h : Counted s) (hi : s.threads[i]? = some a)
    (hthreads : t.threads = s.threads.set i b) (hnthreads : t.nthreads = s.nthreads)
    (hterminate : t.terminate = s.terminate) (howner : t.owner = s.owner) (hcallers : t.callers = s.callers)
    (hinLoop : a.inLoop = b.inLoop) (hasleep : b.isAsleep = true → s.terminate = false ∧ t.taskQueue = [])
    (htasks : b.isAsleep = false →
      t.taskQueue.length + (if a.isReady = true then 1 else 0) + (if a.isSignalling = true then 1 else 0)
      ≤ s.taskQueue.length + (if b.isReady = true then 1 else 0) + (if b.isSignalling = true then 1 else 0)) :
    Counted t := by
  have hset : ∀ p : Thread T → Bool,
      t.threads.countP p + (if p a = true then 1 else 0) = s.threads.countP p + (if p b = true then 1 else 0) := by
    intro p
    rw [hthreads]
    exact ListSet.countP_set_add p hi b
  refine h.of_inLoop hnthreads hterminate howner (Nat.le_of_eq hcallers) ?_ ?_ ?_
  · have hin := hset Thread.inLoop
    rw [hinLoop] at hin
    omega
  · intro hterm
    have has := hset Thread.isAsleep
    have hb : b.isAsleep = false := by
      by_contra hb
      exact absurd (hterm.symm.trans (hasleep (by simpa using hb)).1) (by decide)
    rw [hb] at has
    simp only [Bool.false_eq_true, ↓reduceIte] at has
    omega
  · by_cases hb : b.isAsleep = true
    · right
      rw [(hasleep hb).2]
      exact Nat.zero_le _
    · have has := hset Thread.isAsleep
      have hready := hset Thread.isReady
      have hsignalling := hset Thread.isSignalling
      have hold := h.tasks
      have hnew := htasks (by simpa using hb)
      rw [if_neg hb] at has
      omega

theorem leave_cases (s : State T) (i : Nat) :
    (s.leave i = s.exchangeTid i ∧ ∀ purpose, s.owner = .asleep purpose → 0 < s.nthreads - 1)
      ∨ ∃ purpose, s.owner = .asleep purpose ∧ s.leave i = { s.exchangeTid i with owner := .ready purpose } := by
  have howner : (s.exchangeTid i).owner = s.owner := rfl
  have hnthreads : (s.exchangeTid i).nthreads = s.nthreads - 1 := rfl
  simp only [State.leave, hnthreads, State.signalTerminate]
  split
  next =>
    split
    next purpose hasleep => exact Or.inr ⟨purpose, howner ▸ hasleep, rfl⟩
    next hother => exact Or.inl ⟨rfl, fun purpose hasleep => absurd (howner.trans hasleep) (hother purpose)⟩
  next hne => exact Or.inl ⟨rfl, fun _ _ => Nat.pos_of_ne_zero hne⟩

theorem Counted.exchangeTid (h : Counted s) {i : Nat} (hi : s.threads[i]? = some .ready)
    (hterminate : s.terminate = true) (howner : ∀ purpose, s.owner = .asleep purpose → 0 < s.nthreads - 1) :
    Counted (s.exchangeTid i) := by
  have hinLoop := ListSet.countP_set_add Thread.inLoop hi (.leaving s.tid)
  have hasleep := ListSet.countP_set_add Thread.isAsleep hi (.leaving s.tid)
  simp only [Thread.inLoop, Thread.isAsleep, Bool.false_eq_true, ↓reduceIte] at hinLoop hasleep
  have hzero := h.sleepers hterminate
  have hthreads : (s.exchangeTid i).threads = s.threads.set i (.leaving s.tid) := rfl
  constructor
  · change s.nthreads - 1 = _
    rw [hthreads, h.nthreads]
    omega
  · exact h.terminate
  · intro _
    rw [hthreads]
    omega
  · rw [hthreads]
    omega
  · exact howner
  · intro halone
    change s.nthreads - 1 = 0
    rw [h.alone halone]
  · exact h.callers

theorem Counted.of_owner {owner : Owner} (h : Counted s) (hterminated : owner.terminated = s.owner.terminated)
    (hasleep : ∀ purpose, owner = .asleep purpose → 0 < s.nthreads) (halone : owner.alone = true → s.nthreads = 0)
    (hcallers : owner ≠ .created → s.callers = 0) : Counted { s with owner := owner } :=
  ⟨h.nthreads, hterminated ▸ h.terminate, h.sleepers, h.tasks, hasleep, halone, hcallers⟩

theorem Counted.leave (h : Counted s) {i : Nat} (hi : s.threads[i]? = some .ready) (hterminate : s.terminate = true) :
    Counted (s.leave i) := by
  obtain ⟨heq, howner⟩ | ⟨purpose, hasleep, heq⟩ := leave_cases s i
  · rw [heq]
    exact h.exchangeTid hi hterminate howner
  · rw [heq]
    have hready : Counted { s with owner := .ready purpose } := by
      refine h.of_owner ?_ (by simp) (by simp [Owner.alone]) fun _ => h.callers (by simp [hasleep])
      rw [hasleep]
      rfl
    exact hready.exchangeTid hi hterminate (by simp)

theorem Counted.awaitThreads {purpose : Purpose} (h : Counted s) (hterminated : s.owner.terminated = true)
    (hcallers : s.callers = 0) : Counted (s.awaitThreads purpose) := by
  unfold State.awaitThreads
  split
  next hpos => exact h.of_owner (by rw [hterminated]; rfl) (fun _ _ => hpos) (by simp [Owner.alone]) fun _ => hcallers
  next hzero =>
    exact h.of_owner (by rw [hterminated]; rfl) (by simp) (fun _ => Nat.eq_zero_of_not_pos hzero) fun _ => hcallers

theorem Counted.setTerminate {purpose : Purpose} (h : Counted s) (howner : s.owner = .terminating purpose) :
    Counted (s.setTerminate purpose) := by
  have hcallers := h.callers (by simp [howner])
  have hinLoop : (s.threads.map Thread.wake).countP Thread.inLoop = s.threads.countP Thread.inLoop := by
    rw [List.countP_map]
    exact List.countP_congr fun thread _ => by simp
  have hasleep : (s.threads.map Thread.wake).countP Thread.isAsleep = 0 := by
    simp [List.countP_eq_zero]
  have hwoken : Counted { s with
      terminate := true, threads := s.threads.map Thread.wake, owner := .ready purpose } :=
    ⟨h.nthreads.trans hinLoop.symm, rfl, fun _ => hasleep, Or.inl hasleep, by simp, by simp [Owner.alone],
      fun _ => hcallers⟩
  exact hwoken.awaitThreads rfl hcallers

theorem Counted.createThreads {left : Nat} (h : Counted s) (howner : s.owner = .creating left) (ok : Bool) :
    Counted (s.createThreads left ok) := by
  have hcallers := h.callers (by simp [howner])
  have hterminated : s.owner.terminated = false := by rw [howner]; rfl
  unfold State.createThreads
  split
  next => exact h.of_owner hterminated.symm (by simp) (by simp [Owner.alone]) fun _ => hcallers
  next =>
    split
    next =>
      have hcreated := h.createThread (by rw [howner]; rfl)
      exact hcreated.of_owner hterminated.symm (by simp) (by simp [Owner.alone]) fun _ => hcallers
    next => exact h.of_owner hterminated.symm (by simp) (by simp [Owner.alone]) fun _ => hcallers

theorem Counted.increase (h : Counted s) (halone : s.owner.alone = false) (ok : Bool) : Counted (s.increase ok) := by
  cases ok
  · exact h
  · exact h.createThread halone

theorem Counted.not_alone (h : Counted s) {i : Nat} {thread : Thread T} (hi : s.threads[i]? = some thread)
    (hinLoop : thread.inLoop = true) : s.owner.alone = false := by
  by_contra halone
  have hzero := h.alone (by simpa using halone)
  rw [h.nthreads, List.countP_eq_zero] at hzero
  exact hzero thread (List.mem_of_getElem? hi) hinLoop

theorem Counted.afterTerminate {purpose : Purpose} (h : Counted s) (howner : s.owner = .joining purpose) :
    Counted (s.afterTerminate purpose) := by
  have hzero := h.alone (by rw [howner]; rfl)
  have hcallers := h.callers (by simp [howner])
  have hterminated : s.owner.terminated = true := by rw [howner]; rfl
  cases purpose with
  | abandon => exact h.of_owner hterminated.symm (by simp) (fun _ => hzero) fun _ => hcallers
  | destroy pending => exact h.of_owner hterminated.symm (by simp) (fun _ => hzero) fun _ => hcallers

theorem Counted.drain {pending : Bool} (h : Counted s) (howner : s.owner = .draining pending) :
    Counted (s.drain pending) := by
  have hzero := h.alone (by rw [howner]; rfl)
  have hcallers := h.callers (by simp [howner])
  have hterminate : s.terminate = true := by rw [h.terminate, howner]; rfl
  unfold State.drain
  split
  next => exact h.of_owner (by rw [howner]; rfl) (by simp) (fun _ => hzero) fun _ => hcallers
  next task rest hqueue =>
    exact h.of_inLoop rfl rfl rfl (Nat.le_refl _) rfl (fun _ => Nat.le_refl _) (Or.inl (h.sleepers hterminate))

theorem Counted.signalled {t : State T} (h : Counted s) (ht : Signalled s t) : Counted t := by
  obtain ⟨hnthreads, hterminate, howner, hcallers, hinLoop, hasleep⟩ := ht.same
  refine h.of_inLoop hnthreads hterminate howner (Nat.le_of_eq hcallers) hinLoop (fun _ => hasleep) (ht.tasks ?_)
  have htasks := h.tasks
  omega

theorem Counted.effect {turn : Turn T} {t : State T} (h : Counted s) (he : Effect s turn t) : Counted t := by
  cases he with
  | schedule task howner =>
      refine ⟨h.nthreads, h.terminate, h.sleepers, ?_, h.owner, h.alone, fun hne => absurd howner hne⟩
      have htasks := h.tasks
      change s.threads.countP Thread.isAsleep = 0
        ∨ (s.taskQueue ++ [task]).length
          ≤ s.threads.countP Thread.isReady + s.threads.countP Thread.isSignalling + (s.callers + 1)
      rw [List.length_append, List.length_singleton]
      omega
  | signal pick t hcallers ht =>
      obtain ⟨hnthreads, hterminate, howner, hcallers', hinLoop, hasleep⟩ := ht.same
      refine h.of_inLoop hnthreads hterminate howner ?_ hinLoop (fun _ => hasleep) (ht.tasks ?_)
      · rw [hcallers']
        exact Nat.sub_le _ _
      · have htasks := h.tasks
        simp only
        omega
  | increase ok howner => exact h.increase (by rw [howner]; rfl) ok
  | leave i hi hterminate => exact h.leave hi hterminate
  | sleep i hi hterminate hqueue =>
      exact h.of_set hi rfl rfl rfl rfl rfl rfl (fun _ => ⟨hterminate, hqueue⟩) (by simp [Thread.isAsleep])
  | take i task rest hi hterminate hqueue =>
      exact h.of_set hi rfl rfl rfl rfl rfl rfl (by simp [Thread.isAsleep])
        (by simp [hqueue, Thread.isReady, Thread.isSignalling])
  | spuriousWake i hi =>
      exact h.of_set hi rfl rfl rfl rfl rfl rfl (by simp [Thread.isAsleep])
        (by simp [Thread.isReady, Thread.isSignalling])
  | taskSchedule i task outer hi =>
      exact h.of_set hi rfl rfl rfl rfl rfl rfl (by simp [Thread.isAsleep])
        (by simp [State.schedule, Thread.isReady, Thread.isSignalling])
  | taskSignal i pick outer t hi ht =>
      have hasleep := ListSet.countP_set_add Thread.isAsleep hi (.running outer)
      have hready := ListSet.countP_set_add Thread.isReady hi (.running outer)
      have hsignalling := ListSet.countP_set_add Thread.isSignalling hi (.running outer)
      have hinLoop := ListSet.countP_set_add Thread.inLoop hi (.running outer)
      simp only [Thread.isAsleep, Thread.isReady, Thread.isSignalling, Thread.inLoop, Bool.false_eq_true,
        ↓reduceIte] at hasleep hready hsignalling hinLoop
      obtain ⟨hnthreads, hterminate, howner, hcallers, hinLoop', hasleep'⟩ := ht.same
      rw [State.threads_setThread] at hinLoop' hasleep'
      refine h.of_inLoop hnthreads hterminate howner (Nat.le_of_eq hcallers) (by omega) (fun _ => by omega)
        (ht.tasks ?_)
      have htasks := h.tasks
      simp only [State.threads_setThread, State.taskQueue_setThread, State.callers_setThread]
      omega
  | taskIncrease i ok outer hi => exact h.increase (h.not_alone hi rfl) ok
  | finish i task hi =>
      exact h.of_set hi rfl rfl rfl rfl rfl rfl (by simp [Thread.isAsleep])
        (by simp [Thread.isReady, Thread.isSignalling])
  | endFirst i hi =>
      exact h.of_set hi rfl rfl rfl rfl rfl rfl (by simp [Thread.isAsleep])
        (by simp [Thread.isReady, Thread.isSignalling])
  | endNext i tid hi htid =>
      exact h.of_set hi rfl rfl rfl rfl rfl rfl (by simp [Thread.isAsleep])
        (by simp [Thread.isReady, Thread.isSignalling])
  | createThreads left ok howner => exact h.createThreads howner ok
  | destroy pending howner hcallers =>
      exact h.of_owner (by rw [howner]; rfl) (by simp) (by simp [Owner.alone]) fun _ => hcallers
  | setTerminate purpose howner => exact h.setTerminate howner
  | ownerSpuriousWake purpose howner =>
      exact h.of_owner (by rw [howner]; rfl) (by simp) (by simp [Owner.alone]) fun _ => h.callers (by simp [howner])
  | ownerSection purpose howner =>
      exact h.awaitThreads (by rw [howner]; rfl) (h.callers (by simp [howner]))
  | joinNone purpose howner htid => exact h.afterTerminate howner
  | joinLast purpose tid howner htid hended =>
      have hjoined : Counted { s with joined := s.joined ++ [tid] } :=
        ⟨h.nthreads, h.terminate, h.sleepers, h.tasks, h.owner, h.alone, h.callers⟩
      exact hjoined.afterTerminate howner
  | drain pending howner => exact h.drain howner

end WorkflowModel.Kernel.ThrdPool
