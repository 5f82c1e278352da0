import WorkflowModel.Kernel.Executor
import WorkflowModel.Lib.ListSet

/-!
# The tickets of the executor

A task of the pool is a ticket for a queue. A queue with sessions has one ticket, an empty one has none, so the
thread that comes with a ticket always finds a session. The sessions of a queue come out in the order in which they
went in, first those that are executed and, at the end, those that are canceled.
-/

namespace WorkflowModel.Kernel.Executor

variable {s s' : State} {nthreads : Nat} {turn : Turn}

def Entry.accepted? (q : Nat) : Entry → Option Nat
  | .accepted queue session => if queue = q then some session else none
  | _ => none

def Entry.taken? (q : Nat) : Entry → Option Nat
  | .taken queue session => if queue = q then some session else none
  | _ => none

def Entry.canceled? (q : Nat) : Entry → Option Nat
  | .handled queue session .canceled => if queue = q then some session else none
  | _ => none

namespace State

/-- The sessions whose request was accepted, in the order of the requests. -/
def accepted (s : State) (q : Nat) : List Nat := s.log.filterMap (Entry.accepted? q)

def taken (s : State) (q : Nat) : List Nat := s.log.filterMap (Entry.taken? q)

def canceled (s : State) (q : Nat) : List Nat := s.log.filterMap (Entry.canceled? q)

/-- The tasks for the queue that are in the pool, or with a thread that has not run its section yet. -/
def tickets (s : State) (q : Nat) : Nat := s.taskQueue.count q + s.threads.count (.taken q)

end State

structure Sound (s : State) : Prop where
  tickets : ∀ q, s.tickets q = if s.taskList q = [] then 0 else 1
  order : ∀ q, s.accepted q = s.taken q ++ s.canceled q ++ s.taskList q
  stopped : ∀ thread ∈ s.threads, thread ≠ .exited → ∀ q, s.canceled q = []
  taken : ∀ q x, (s.taken q).count x = s.threads.count (.running q x) + s.log.count (.executed q x)
  executed : ∀ q x, s.log.count (.executed q x)
    = s.threads.count (.executed q x) + s.log.count (.handled q x .finished)

theorem sound_init (nthreads : Nat) : Sound (init nthreads) := by
  have hcount : ∀ t, t ≠ PoolThread.idle → (List.replicate nthreads PoolThread.idle).count t = 0 := by
    intro t ht
    rw [List.count_replicate, if_neg (by simpa using Ne.symm ht)]
  constructor
  · intro q
    simp [State.tickets, init, hcount]
  · intro q
    simp [State.accepted, State.taken, State.canceled, init]
  · intro _ _ _ q
    simp [State.canceled, init]
  · intro q x
    simp [State.taken, init, hcount]
  · intro q x
    simp [init, hcount]

theorem lists_of_log {e : Entry} (hlog : s'.log = s.log ++ [e]) (q : Nat) :
    s'.accepted q = s.accepted q ++ (e.accepted? q).toList ∧ s'.taken q = s.taken q ++ (e.taken? q).toList
      ∧ s'.canceled q = s.canceled q ++ (e.canceled? q).toList := by
  have hone : ∀ f : Entry → Option Nat, [e].filterMap f = (f e).toList := by
    intro f
    cases hf : f e <;> simp [hf]
  refine ⟨?_, ?_, ?_⟩
  · rw [State.accepted, hlog, List.filterMap_append, hone]
    rfl
  · rw [State.taken, hlog, List.filterMap_append, hone]
    rfl
  · rw [State.canceled, hlog, List.filterMap_append, hone]
    rfl

/-- A request that is rejected leaves the queue and the pool alone; else the session is the last of its queue, and
the pool has a ticket for the queue if it is the only one. -/
theorem request_cases (s : State) (session queue : Nat) (entryOk scheduleOk : Bool) :
    request s session queue entryOk scheduleOk = ({ s with log := s.log ++ [.rejected queue session] }, -1)
      ∨ request s session queue entryOk scheduleOk = ({ s with
          taskList := Function.update s.taskList queue (s.taskList queue ++ [session]),
          taskQueue := s.taskQueue ++ if s.taskList queue = [] then [queue] else [],
          log := s.log ++ [.accepted queue session] }, 0) := by
  unfold request
  split
  · split
    · split
      · exact Or.inr rfl
      · left
        simp only [Function.update_self, List.dropLast_concat, Function.update_idem, Function.update_eq_self]
    · right
      simp only [List.append_nil]
  · exact Or.inl rfl

/-- Who requests a session leaves the threads alone, and takes and cancels none. -/
theorem Sound.of_threads_eq {e : Entry} (h : Sound s) (hthreads : s'.threads = s.threads)
    (hlog : s'.log = s.log ++ [e]) (he : ∀ q, e.taken? q = none ∧ e.canceled? q = none)
    (hcount : ∀ q x, [e].count (.executed q x) = 0 ∧ [e].count (.handled q x .finished) = 0)
    (htickets : ∀ q, s'.tickets q = if s'.taskList q = [] then 0 else 1)
    (horder : ∀ q, s'.accepted q = s.taken q ++ s.canceled q ++ s'.taskList q) : Sound s' := by
  have hlists : ∀ q, s'.taken q = s.taken q ∧ s'.canceled q = s.canceled q := by
    intro q
    obtain ⟨-, htaken, hcanceled⟩ := lists_of_log hlog q
    rw [htaken, hcanceled, (he q).1, (he q).2, Option.toList_none, List.append_nil, List.append_nil]
    exact ⟨rfl, rfl⟩
  constructor
  · exact htickets
  · intro q
    rw [(hlists q).1, (hlists q).2]
    exact horder q
  · intro thread hthread hne q
    rw [hthreads] at hthread
    rw [(hlists q).2]
    exact h.stopped thread hthread hne q
  · intro q x
    rw [(hlists q).1, hlog, hthreads, List.count_append, (hcount q x).1, Nat.add_zero]
    exact h.taken q x
  · intro q x
    rw [hlog, hthreads, List.count_append, List.count_append, (hcount q x).1, (hcount q x).2, Nat.add_zero,
      Nat.add_zero]
    exact h.executed q x

theorem Sound.reject {session queue : Nat} (h : Sound s) (htaskList : s'.taskList = s.taskList)
    (htaskQueue : s'.taskQueue = s.taskQueue) (hthreads : s'.threads = s.threads)
    (hlog : s'.log = s.log ++ [.rejected queue session]) : Sound s' := by
  apply h.of_threads_eq hthreads hlog (fun _ => ⟨rfl, rfl⟩) (by simp)
  · intro q
    rw [htaskList, ← h.tickets q, State.tickets, State.tickets, htaskQueue, hthreads]
  · intro q
    rw [(lists_of_log hlog q).1, htaskList, ← h.order q]
    exact List.append_nil _

/-- A session comes to the end of its queue, with a ticket if it is the first. -/
theorem Sound.accept {session queue : Nat} (h : Sound s)
    (htaskList : s'.taskList = Function.update s.taskList queue (s.taskList queue ++ [session]))
    (htaskQueue : s'.taskQueue = s.taskQueue ++ if s.taskList queue = [] then [queue] else [])
    (hthreads : s'.threads = s.threads) (hlog : s'.log = s.log ++ [.accepted queue session]) : Sound s' := by
  apply h.of_threads_eq hthreads hlog (fun _ => ⟨rfl, rfl⟩) (by simp)
  · intro q
    have := h.tickets q
    rw [State.tickets] at this
    rw [State.tickets, htaskList, htaskQueue, hthreads, List.count_append]
    by_cases hq : q = queue
    · subst hq
      rw [Function.update_self, if_neg (List.append_ne_nil_of_right_ne_nil _ (List.cons_ne_nil _ _))]
      by_cases hempty : s.taskList q = [] <;> simp [hempty] at this ⊢ <;> omega
    · rw [Function.update_of_ne hq, ← this]
      split
      · rw [List.count_singleton, if_neg (by simpa using Ne.symm hq)]
        omega
      · rfl
  · intro q
    rw [(lists_of_log hlog q).1, h.order q, htaskList, Entry.accepted?]
    by_cases hq : q = queue
    · subst hq
      rw [Function.update_self, if_pos rfl, Option.toList_some, List.append_assoc]
    · rw [Function.update_of_ne hq, if_neg (Ne.symm hq), Option.toList_none, List.append_nil]

theorem Sound.request (h : Sound s) (session queue : Nat) (entryOk scheduleOk : Bool) :
    Sound (request s session queue entryOk scheduleOk).1 := by
  rcases request_cases s session queue entryOk scheduleOk with hcase | hcase
  · rw [hcase]
    exact h.reject rfl rfl rfl rfl
  · rw [hcase]
    exact h.accept rfl rfl rfl rfl

/-- A thread takes a ticket, begins or ends, but does not touch a session. -/
theorem Sound.move {thread : Nat} {x y : PoolThread} (h : Sound s) (hx : s.threads[thread]? = some x)
    (hthreads : s'.threads = s.threads.set thread y) (htaskList : s'.taskList = s.taskList) (hlog : s'.log = s.log)
    (htickets : ∀ q, s'.taskQueue.count q + (if y = .taken q then 1 else 0)
      = s.taskQueue.count q + if x = .taken q then 1 else 0)
    (hsessions : ∀ q session, x ≠ .running q session ∧ x ≠ .executed q session ∧ y ≠ .running q session
      ∧ y ≠ .executed q session) (hx' : x ≠ .exited) : Sound s' := by
  have hcount := ListSet.count_set_add hx y
  constructor
  · intro q
    have := h.tickets q
    have := htickets q
    have := hcount (.taken q)
    rw [htaskList, ← h.tickets q, State.tickets, State.tickets, hthreads]
    omega
  · intro q
    have := h.order q
    rw [State.accepted, State.taken, State.canceled] at this ⊢
    rwa [hlog, htaskList]
  · intro _ _ _ q
    rw [State.canceled, hlog]
    exact h.stopped x (List.mem_of_getElem? hx) hx' q
  · intro q session
    have hsame := hcount (.running q session)
    obtain ⟨hne, -, hne', -⟩ := hsessions q session
    rw [if_neg hne, if_neg hne', Nat.add_zero, Nat.add_zero] at hsame
    rw [State.taken, hlog, hthreads, hsame]
    exact h.taken q session
  · intro q session
    have hsame := hcount (.executed q session)
    obtain ⟨-, hne, -, hne'⟩ := hsessions q session
    rw [if_neg hne, if_neg hne', Nat.add_zero, Nat.add_zero] at hsame
    rw [hlog, hthreads, hsame]
    exact h.executed q session

/-- The section takes the first session, and puts the ticket back if there is another one. -/
theorem Sound.section {thread queue session : Nat} {rest : List Nat} (h : Sound s)
    (hx : s.threads[thread]? = some (.taken queue)) (hqueue : s.taskList queue = session :: rest)
    (hthreads : s'.threads = s.threads.set thread (.running queue session))
    (htaskList : s'.taskList = Function.update s.taskList queue rest)
    (htaskQueue : s'.taskQueue = s.taskQueue ++ if rest ≠ [] then [queue] else [])
    (hlog : s'.log = s.log ++ [.taken queue session]) : Sound s' := by
  have hcount := ListSet.count_set_add hx (.running queue session)
  have hnone := h.stopped _ (List.mem_of_getElem? hx) (by simp)
  have hlists := lists_of_log hlog
  simp only [Entry.accepted?, Entry.taken?, Entry.canceled?, Option.toList_none, List.append_nil] at hlists
  constructor
  · intro q
    have hone := h.tickets q
    have hleft := hcount (.taken q)
    rw [State.tickets] at hone
    rw [State.tickets, htaskList, htaskQueue, hthreads, List.count_append]
    by_cases hq : q = queue
    · subst hq
      rw [hqueue, if_neg (by simp)] at hone
      rw [Function.update_self]
      by_cases hrest : rest = []
      · simp [hrest] at hleft ⊢
        omega
      · simp [hrest] at hleft ⊢
        omega
    · rw [Function.update_of_ne hq, ← hone]
      have hq' : queue ≠ q := Ne.symm hq
      split <;> simp [hq'] at hleft ⊢ <;> omega
  · intro q
    obtain ⟨haccepted, htaken, hcanceled⟩ := hlists q
    have := h.order q
    rw [hnone q, List.append_nil] at this
    rw [haccepted, htaken, hcanceled, this, htaskList, hnone q, List.append_nil]
    by_cases hq : q = queue
    · subst hq
      rw [Function.update_self, if_pos rfl, Option.toList_some, hqueue, List.append_assoc]
      rfl
    · rw [Function.update_of_ne hq, if_neg (Ne.symm hq), Option.toList_none, List.append_nil]
  · intro _ _ _ q
    rw [(hlists q).2.2]
    exact hnone q
  · intro q x
    have := h.taken q x
    have hmore := hcount (.running q x)
    rw [(hlists q).2.1, hlog, hthreads, List.count_append, List.count_append, this]
    by_cases hq : queue = q <;> by_cases hsession : session = x <;>
      simp [hq, hsession] at hmore ⊢ <;> omega
  · intro q x
    have := h.executed q x
    have hsame := hcount (.executed q x)
    rw [hlog, hthreads, List.count_append, List.count_append]
    simp at hsame ⊢
    omega

/-- A thread goes on with its session, from `x` to `y`, with the entry `e` of the log. -/
theorem Sound.advance {thread : Nat} {x y : PoolThread} {e : Entry} (h : Sound s) (hx : s.threads[thread]? = some x)
    (hthreads : s'.threads = s.threads.set thread y) (htaskList : s'.taskList = s.taskList)
    (htaskQueue : s'.taskQueue = s.taskQueue) (hlog : s'.log = s.log ++ [e])
    (he : ∀ q, e.accepted? q = none ∧ e.taken? q = none ∧ e.canceled? q = none)
    (htickets : ∀ q, x ≠ .taken q ∧ y ≠ .taken q) (hx' : x ≠ .exited)
    (hrunning : ∀ q session, (if x = .running q session then 1 else 0)
      = (if y = .running q session then 1 else 0) + [e].count (.executed q session))
    (hexecuted : ∀ q session, (if x = .executed q session then 1 else 0) + [e].count (.executed q session)
      = (if y = .executed q session then 1 else 0) + [e].count (.handled q session .finished)) : Sound s' := by
  have hcount := ListSet.count_set_add hx y
  have hnone := h.stopped _ (List.mem_of_getElem? hx) hx'
  have hlists : ∀ q, s'.accepted q = s.accepted q ∧ s'.taken q = s.taken q ∧ s'.canceled q = s.canceled q := by
    intro q
    obtain ⟨haccepted, htaken, hcanceled⟩ := he q
    have hmore := lists_of_log hlog q
    rwa [haccepted, htaken, hcanceled, Option.toList_none, List.append_nil, List.append_nil, List.append_nil] at hmore
  constructor
  · intro q
    have hsame := hcount (.taken q)
    rw [if_neg (htickets q).1, if_neg (htickets q).2, Nat.add_zero, Nat.add_zero] at hsame
    rw [htaskList, ← h.tickets q, State.tickets, State.tickets, htaskQueue, hthreads, hsame]
  · intro q
    obtain ⟨haccepted, htaken, hcanceled⟩ := hlists q
    rw [haccepted, htaken, hcanceled, htaskList]
    exact h.order q
  · intro _ _ _ q
    rw [(hlists q).2.2]
    exact hnone q
  · intro q session
    have := h.taken q session
    have := hcount (.running q session)
    have := hrunning q session
    rw [(hlists q).2.1, hlog, hthreads, List.count_append]
    omega
  · intro q session
    have := h.executed q session
    have := hcount (.executed q session)
    have := hexecuted q session
    rw [hlog, hthreads, List.count_append, List.count_append]
    omega

theorem Sound.execute {thread queue session : Nat} (h : Sound s)
    (hx : s.threads[thread]? = some (.running queue session))
    (hthreads : s'.threads = s.threads.set thread (.executed queue session)) (htaskList : s'.taskList = s.taskList)
    (htaskQueue : s'.taskQueue = s.taskQueue) (hlog : s'.log = s.log ++ [.executed queue session]) : Sound s' := by
  refine h.advance hx hthreads htaskList htaskQueue hlog (fun _ => ⟨rfl, rfl, rfl⟩) (by simp) (by simp) ?_ ?_
  · intro q x
    simp [List.count_singleton]
  · intro q x
    simp [List.count_singleton]

theorem Sound.handle {thread queue session : Nat} (h : Sound s)
    (hx : s.threads[thread]? = some (.executed queue session)) (hthreads : s'.threads = s.threads.set thread .idle)
    (htaskList : s'.taskList = s.taskList) (htaskQueue : s'.taskQueue = s.taskQueue)
    (hlog : s'.log = s.log ++ [.handled queue session .finished]) : Sound s' := by
  refine h.advance hx hthreads htaskList htaskQueue hlog (fun _ => ⟨rfl, rfl, rfl⟩) (by simp) (by simp) ?_ ?_
  · intro q x
    simp
  · intro q x
    simp [List.count_singleton]

/-- What the canceled sessions of a queue add to the lists and the counts. -/
theorem lists_of_canceled {queue : Nat} {sessions : List Nat}
    (hlog : s'.log = s.log ++ sessions.map fun session => .handled queue session .canceled) (q : Nat) :
    s'.accepted q = s.accepted q ∧ s'.taken q = s.taken q
      ∧ s'.canceled q = s.canceled q ++ if queue = q then sessions else [] := by
  have hnone : ∀ f : Entry → Option Nat, (∀ x, f (.handled queue x .canceled) = none) →
      (sessions.map fun session => Entry.handled queue session .canceled).filterMap f = [] := by
    intro f hf
    rw [List.filterMap_map, List.filterMap_eq_nil_iff]
    intro x _
    exact hf x
  refine ⟨?_, ?_, ?_⟩
  · rw [State.accepted, hlog, List.filterMap_append, hnone _ fun _ => rfl, List.append_nil]
    rfl
  · rw [State.taken, hlog, List.filterMap_append, hnone _ fun _ => rfl, List.append_nil]
    rfl
  · rw [State.canceled, hlog, List.filterMap_append, List.filterMap_map, State.canceled, List.append_cancel_left_eq]
    by_cases hq : queue = q
    · rw [if_pos hq]
      calc List.filterMap (Entry.canceled? q ∘ fun session => .handled queue session .canceled) sessions
          = List.filterMap some sessions := by
            congr 1
            funext x
            exact if_pos hq
        _ = sessions := List.filterMap_some
    · rw [if_neg hq, List.filterMap_eq_nil_iff]
      intro x _
      exact if_neg hq

theorem count_canceled {queue : Nat} {sessions : List Nat} {e : Entry} (he : ∀ x, e ≠ .handled queue x .canceled) :
    (sessions.map fun session => Entry.handled queue session .canceled).count e = 0 := by
  rw [List.count_eq_zero]
  intro hmem
  obtain ⟨x, -, hx⟩ := List.mem_map.mp hmem
  exact he x hx.symm

/-- The threads have ended, and the sessions of the first queue that the pool has a ticket for are canceled. -/
theorem Sound.cancel {queue : Nat} {rest : List Nat} (h : Sound s) (htaskQueue : s.taskQueue = queue :: rest)
    (hexited : ∀ thread ∈ s.threads, thread = .exited) (hrest : s'.taskQueue = rest)
    (htaskList : s'.taskList = Function.update s.taskList queue []) (hthreads : s'.threads = s.threads)
    (hlog : s'.log = s.log ++ (s.taskList queue).map fun session => .handled queue session .canceled) :
    Sound s' := by
  have hlists := lists_of_canceled hlog
  have hnone : ∀ q, s.threads.count (.taken q) = 0 := by
    intro q
    rw [List.count_eq_zero]
    intro hmem
    have := hexited _ hmem
    contradiction
  constructor
  · intro q
    have hone := h.tickets q
    rw [State.tickets, hnone, htaskQueue, List.count_cons] at hone
    rw [State.tickets, hthreads, hnone, hrest, htaskList]
    by_cases hq : q = queue
    · subst hq
      rw [Function.update_self, if_pos rfl]
      simp at hone
      split at hone <;> omega
    · rw [Function.update_of_ne hq]
      simpa [Ne.symm hq] using hone
  · intro q
    obtain ⟨haccepted, htaken, hcanceled⟩ := hlists q
    rw [haccepted, htaken, hcanceled, h.order q, htaskList]
    by_cases hq : q = queue
    · subst hq
      rw [Function.update_self, if_pos rfl, List.append_nil, List.append_assoc]
    · rw [Function.update_of_ne hq, if_neg (Ne.symm hq), List.append_nil]
  · intro thread hthread hne
    rw [hthreads] at hthread
    exact absurd (hexited thread hthread) hne
  · intro q x
    rw [(hlists q).2.1, h.taken q x, hthreads, hlog, List.count_append, count_canceled (by simp), Nat.add_zero]
  · intro q x
    rw [hlog, hthreads, List.count_append, List.count_append, count_canceled (by simp), count_canceled (by simp),
      Nat.add_zero, Nat.add_zero]
    exact h.executed q x

theorem Sound.step (h : Sound s) (hstep : step s turn = some s') : Sound s' := by
  cases turn with
  | request session queue entryOk scheduleOk =>
      simp only [Executor.step, Option.ite_none_right_eq_some, Option.some.injEq] at hstep
      rw [← hstep.2]
      exact h.request session queue entryOk scheduleOk
  | take thread =>
      simp only [Executor.step] at hstep
      split at hstep
      next queue rest hx htaskQueue =>
        split at hstep
        · rw [← Option.some.inj hstep]
          refine h.move hx rfl rfl rfl (fun q => ?_) (by simp) (by simp)
          rw [htaskQueue, List.count_cons]
          simp
        · contradiction
      · contradiction
  | threadSection thread =>
      simp only [Executor.step] at hstep
      split at hstep
      next queue hx =>
        simp only [Executor.threadSection] at hstep
        split at hstep
        next session rest hqueue =>
          rw [← Option.some.inj hstep]
          by_cases hrest : rest = []
          · exact h.section hx hqueue (by simp [hrest]) (by simp [hrest]) (by simp [hrest]) (by simp [hrest])
          · exact h.section hx hqueue (by simp [hrest]) (by simp [hrest]) (by simp [hrest]) (by simp [hrest])
        · contradiction
      · contradiction
  | execute thread =>
      simp only [Executor.step] at hstep
      split at hstep
      next queue session hx =>
        rw [← Option.some.inj hstep]
        exact h.execute hx rfl rfl rfl rfl
      · contradiction
  | handle thread =>
      simp only [Executor.step] at hstep
      split at hstep
      next queue session hx =>
        rw [← Option.some.inj hstep]
        exact h.handle hx rfl rfl rfl rfl
      · contradiction
  | terminate =>
      simp only [Executor.step, Option.ite_none_right_eq_some, Option.some.injEq] at hstep
      rw [← hstep.2]
      exact ⟨h.tickets, h.order, h.stopped, h.taken, h.executed⟩
  | exit thread =>
      simp only [Executor.step] at hstep
      split at hstep
      next hx =>
        split at hstep
        · rw [← Option.some.inj hstep]
          exact h.move hx rfl rfl rfl (fun q => by simp) (by simp) (by simp)
        · contradiction
      · contradiction
  | cancel =>
      simp only [Executor.step] at hstep
      split at hstep
      next queue rest htaskQueue =>
        split at hstep
        next hend =>
          rw [← Option.some.inj hstep]
          exact h.cancel htaskQueue hend.2 rfl rfl rfl rfl
        · contradiction
      · contradiction

theorem Reached.sound (h : Reached nthreads s) : Sound s := by
  induction h with
  | init => exact sound_init nthreads
  | step _ hstep ih => exact ih.step hstep

end WorkflowModel.Kernel.Executor
