import WorkflowModel.Lib.RingBuffer
import WorkflowModel.Factory.SeriesWork

/-!
# The ring of a series and its sequence of tasks

Each call does to the ring what the same call does to the sequence, and gives the same reply.
-/

namespace WorkflowModel.Factory

open RingBuffer

variable {T : Type*}

/-- The series has the tasks of the sequence in its ring, from `front` to `back`. -/
structure Holds (s : SeriesWork T) (d : TaskDeque T) : Prop where
  front_lt : s.front < s.queueSize
  fits : d.tasks.length < s.queueSize
  back : s.back = (s.front + d.tasks.length) % s.queueSize
  tasks : window s.queue s.queueSize s.front d.tasks.length = d.tasks.map some
  last : s.last = d.last
  inParallel : s.inParallel = d.inParallel
  canceled : s.canceled = d.canceled
  callback : s.callback = d.callback
  gone : s.gone = d.gone

variable {s : SeriesWork T} {d : TaskDeque T}

theorem Holds.front_eq_back_iff (h : Holds s d) : s.front = s.back ↔ d.tasks = [] := by
  rw [h.back, eq_comm, mod_add_eq_iff h.front_lt h.fits, List.length_eq_zero_iff]

theorem holds_create (last : Option T) (inParallel callback : Bool) :
    Holds (SeriesWork.create last inParallel callback) (TaskDeque.create last inParallel callback) :=
  ⟨by simp [SeriesWork.create], by simp [SeriesWork.create, TaskDeque.create], rfl, rfl, rfl, rfl, rfl, rfl, rfl⟩

/-- The loop copies the slots from `j` on until it meets `back`, `m` steps after the first. -/
theorem expandLoop_spec (m fuel i j : Nat) (queue : Nat → Option T) (hfuel : m < fuel)
    (hj : j < s.queueSize) (hm : m < s.queueSize) (hback : s.back = (j + (m + 1)) % s.queueSize) :
    ∃ queue', s.expandLoop fuel queue i j = some (queue', i + (m + 1))
      ∧ (∀ k < i, queue' k = queue k) ∧ ∀ k ≤ m, queue' (i + k) = s.queue ((j + k) % s.queueSize) := by
  induction m generalizing fuel i j queue with
  | zero =>
      obtain ⟨fuel, rfl⟩ : ∃ f, fuel = f + 1 := ⟨fuel - 1, by omega⟩
      have hstop : ¬ next s.queueSize j ≠ s.back := by
        rw [not_not, hback, next_eq_mod hj]
      refine ⟨Function.update queue i (s.queue j), ?_, ?_, ?_⟩
      · rw [SeriesWork.expandLoop]
        exact if_neg hstop
      · intro k hk
        exact Function.update_of_ne (by omega) _ _
      · intro k hk
        obtain rfl : k = 0 := by omega
        rw [Nat.add_zero, Nat.add_zero, Function.update_self, Nat.mod_eq_of_lt hj]
  | succ m ih =>
      obtain ⟨fuel, rfl⟩ : ∃ f, fuel = f + 1 := ⟨fuel - 1, by omega⟩
      have hj' := next_lt hj
      have hback' : s.back = (next s.queueSize j + (m + 1)) % s.queueSize := by
        rw [hback, mod_add_next hj]
      have hgo : next s.queueSize j ≠ s.back := by
        intro hmeet
        rw [hback', eq_comm, mod_add_eq_iff hj' hm] at hmeet
        omega
      obtain ⟨queue', hrun, hold, hnew⟩ := ih fuel (i + 1) (next s.queueSize j)
        (Function.update queue i (s.queue j)) (by omega) hj' (by omega) hback'
      refine ⟨queue', ?_, ?_, ?_⟩
      · rw [SeriesWork.expandLoop]
        rw [show i + (m + 1 + 1) = i + 1 + (m + 1) by omega, ← hrun]
        exact if_pos hgo
      · intro k hk
        rw [hold k (by omega)]
        exact Function.update_of_ne (by omega) _ _
      · intro k hk
        rcases k with _ | k
        · rw [Nat.add_zero, Nat.add_zero, hold i (by omega), Function.update_self, Nat.mod_eq_of_lt hj]
        · have := hnew k (by omega)
          rw [show i + (k + 1) = i + 1 + k by omega, this, mod_add_next hj]

/-- A ring that is full is copied into a larger one. -/
theorem expandQueue_spec (hfront : s.front < s.queueSize) (hback : s.back = s.front)
    (hfull : d.tasks.length = s.queueSize)
    (htasks : window s.queue s.queueSize s.front d.tasks.length = d.tasks.map some) (hlast : s.last = d.last)
    (hinParallel : s.inParallel = d.inParallel) (hcanceled : s.canceled = d.canceled)
    (hcallback : s.callback = d.callback) (hgone : s.gone = d.gone) :
    ∃ s', s.expandQueue = some s' ∧ Holds s' d := by
  obtain ⟨queue', hrun, -, hcopy⟩ := expandLoop_spec (s := s) (s.queueSize - 1) s.queueSize 0 s.front
    (fun _ => none) (by omega) hfront (by omega) (by
      rw [hback, Nat.sub_add_cancel (by omega), Nat.add_mod_right, Nat.mod_eq_of_lt hfront])
  rw [Nat.zero_add, Nat.sub_add_cancel (by omega)] at hrun
  have hexpand : s.expandQueue = some { s with
      queue := queue', queueSize := 2 * s.queueSize, front := 0, back := s.queueSize } := by
    rw [SeriesWork.expandQueue, hrun]
    rfl
  refine ⟨_, hexpand, ?_, ?_, ?_, ?_, hlast, hinParallel, hcanceled, hcallback, hgone⟩
  · simp only
    omega
  · simp only
    omega
  · simp only
    rw [Nat.zero_add, Nat.mod_eq_of_lt (by omega), hfull]
  · simp only
    rw [← htasks]
    apply window_copy (by omega)
    intro k hk
    have := hcopy k (by omega)
    rwa [Nat.zero_add] at this

theorem Holds.pushBack (h : Holds s d) (task : T) :
    ∃ s', s.pushBack task = some s' ∧ Holds s' { d with tasks := d.tasks ++ [task] } := by
  have hback : s.back < s.queueSize := by
    rw [h.back]
    exact Nat.mod_lt _ (by have := h.front_lt; omega)
  have hnext : next s.queueSize s.back = (s.front + (d.tasks.length + 1)) % s.queueSize := by
    rw [next_eq_mod hback, h.back, Nat.mod_add_mod, Nat.add_assoc]
  have htasks : window (Function.update s.queue s.back (some task)) s.queueSize s.front
      (d.tasks ++ [task]).length = (d.tasks ++ [task]).map some := by
    rw [List.length_append, List.length_singleton, h.back, window_snoc h.fits, h.tasks, List.map_append]
    rfl
  by_cases hfull : d.tasks.length + 1 = s.queueSize
  · have hmeet : s.front = next s.queueSize s.back := by
      rw [hnext, hfull, Nat.add_mod_right, Nat.mod_eq_of_lt h.front_lt]
    obtain ⟨s', hrun, hs'⟩ := expandQueue_spec (d := { d with tasks := d.tasks ++ [task] })
      (s := { s with queue := Function.update s.queue s.back (some task), back := next s.queueSize s.back })
      h.front_lt hmeet.symm (by simpa using hfull) htasks h.last h.inParallel h.canceled h.callback h.gone
    refine ⟨s', ?_, hs'⟩
    rw [SeriesWork.pushBack, ← hrun]
    exact if_pos hmeet
  · have hfits : d.tasks.length + 1 < s.queueSize := by
      have := h.fits
      omega
    have hopen : s.front ≠ next s.queueSize s.back := by
      rw [hnext, ne_eq, eq_comm, mod_add_eq_iff h.front_lt hfits]
      omega
    refine ⟨{ s with queue := Function.update s.queue s.back (some task), back := next s.queueSize s.back }, ?_,
      h.front_lt, by simpa using hfits, ?_, htasks, h.last, h.inParallel, h.canceled, h.callback, h.gone⟩
    · rw [SeriesWork.pushBack]
      exact if_neg hopen
    · simp only [hnext, List.length_append, List.length_singleton]

theorem Holds.pushFront (h : Holds s d) (task : T) :
    ∃ s', s.pushFront task = some s' ∧ Holds s' { d with tasks := task :: d.tasks } := by
  have hfront := prev_lt h.front_lt
  have hback : s.back = (prev s.queueSize s.front + (d.tasks.length + 1)) % s.queueSize := by
    rw [h.back, ← mod_add_next hfront, next_prev h.front_lt]
  have htasks : window (Function.update s.queue (prev s.queueSize s.front) (some task)) s.queueSize
      (prev s.queueSize s.front) (task :: d.tasks).length = (task :: d.tasks).map some := by
    rw [List.length_cons, window_cons h.front_lt h.fits, h.tasks, List.map_cons]
  by_cases hfull : d.tasks.length + 1 = s.queueSize
  · have hmeet : prev s.queueSize s.front = s.back := by
      rw [hback, hfull, Nat.add_mod_right, Nat.mod_eq_of_lt hfront]
    obtain ⟨s', hrun, hs'⟩ := expandQueue_spec (d := { d with tasks := task :: d.tasks })
      (s := { s with
        queue := Function.update s.queue (prev s.queueSize s.front) (some task), front := prev s.queueSize s.front })
      hfront hmeet.symm hfull htasks h.last h.inParallel h.canceled h.callback h.gone
    refine ⟨s', ?_, hs'⟩
    rw [SeriesWork.pushFront, ← hrun]
    exact if_pos hmeet
  · have hfits : d.tasks.length + 1 < s.queueSize := by
      have := h.fits
      omega
    have hopen : prev s.queueSize s.front ≠ s.back := by
      rw [hback, ne_eq, eq_comm, mod_add_eq_iff hfront hfits]
      omega
    refine ⟨{ s with
        queue := Function.update s.queue (prev s.queueSize s.front) (some task), front := prev s.queueSize s.front },
      ?_, hfront, hfits, hback, htasks, h.last, h.inParallel, h.canceled, h.callback, h.gone⟩
    rw [SeriesWork.pushFront]
    exact if_neg hopen

theorem Holds.popTask_cons (h : Holds s d) {task : T} {rest : List T} (htasks : d.tasks = task :: rest) :
    ∃ s', s.popTask = (s', some task, 0) ∧ s'.queueSize = s.queueSize ∧ Holds s' { d with tasks := rest } := by
  have hne : s.front ≠ s.back := by
    rw [ne_eq, h.front_eq_back_iff, htasks]
    exact List.cons_ne_nil _ _
  have hwindow := h.tasks
  rw [htasks, List.length_cons, window_pop _ h.front_lt, List.map_cons, List.cons.injEq] at hwindow
  have hfits := h.fits
  have hback := h.back
  rw [htasks, List.length_cons] at hfits hback
  refine ⟨{ s with front := next s.queueSize s.front }, ?_, rfl, next_lt h.front_lt, ?_, ?_, hwindow.2, h.last,
    h.inParallel, h.canceled, h.callback, h.gone⟩
  · rw [SeriesWork.popTask, if_pos hne, hwindow.1]
    rfl
  · simp only
    omega
  · simp only
    rw [mod_add_next h.front_lt, hback]

theorem Holds.popTask_last (h : Holds s d) {last : T} (htasks : d.tasks = []) (hlast : d.last = some last) :
    s.popTask = ({ s with last := none }, some last, 0) ∧ Holds { s with last := none } { d with last := none } := by
  refine ⟨?_, h.front_lt, h.fits, h.back, h.tasks, rfl, h.inParallel, h.canceled, h.callback, h.gone⟩
  rw [SeriesWork.popTask, if_neg (not_not.2 (h.front_eq_back_iff.2 htasks)), h.last, hlast]

theorem Holds.popTask_nil (h : Holds s d) (htasks : d.tasks = []) (hlast : d.last = none) :
    ∃ s', s.popTask = (s', none, d.callbacks) ∧ Holds s' d.finish := by
  refine ⟨{ s with last := none, gone := !s.inParallel }, ?_, h.front_lt, ?_, ?_, ?_, rfl, h.inParallel, h.canceled,
    h.callback, ?_⟩
  · rw [SeriesWork.popTask, if_neg (not_not.2 (h.front_eq_back_iff.2 htasks)), h.last, hlast, TaskDeque.callbacks,
      ← h.callback]
  · have := h.front_lt
    simp only [TaskDeque.finish, List.length_nil]
    omega
  · have hback := h.back
    rwa [htasks] at hback
  · rfl
  · simp only [TaskDeque.finish, h.inParallel]

section

variable {s' : SeriesWork T} {task : Option T} {callbacks : Nat}

theorem dropTasks_none (fuel : Nat) (s : SeriesWork T) (reply : Reply T) :
    s.dropTasks fuel none reply = some (s, reply) := by
  cases fuel <;> rfl

theorem dropTasks_succ (hpop : s.popTask = (s', task, callbacks)) (fuel : Nat) (first : T) (reply : Reply T) :
    s.dropTasks (fuel + 1) (some first) reply = s'.dropTasks fuel task { reply with
      deleted := reply.deleted ++ [first], callbacks := reply.callbacks + callbacks } := by
  rw [SeriesWork.dropTasks, hpop]

theorem pop_of_canceled (hcanceled : s.canceled = true) (hpop : s.popTask = (s', task, callbacks)) :
    s.pop = s'.dropTasks (s'.queueSize + 1) task { task := none, deleted := [], callbacks := callbacks } := by
  rw [SeriesWork.pop, hpop]
  exact if_pos hcanceled

theorem pop_of_not_canceled (hcanceled : ¬ s.canceled = true) (hpop : s.popTask = (s', task, callbacks)) :
    s.pop = some (s', { task := task, deleted := [], callbacks := callbacks }) := by
  rw [SeriesWork.pop, hpop]
  exact if_neg hcanceled

end

/-- The loop of `pop` deletes the task it has and all that are left, and ends with the callback. -/
theorem Holds.dropTasks (h : Holds s d) (fuel : Nat) (task : T) (reply : Reply T)
    (hfuel : d.tasks.length + d.last.toList.length < fuel) :
    ∃ s', s.dropTasks fuel (some task) reply = some (s', { reply with
        deleted := reply.deleted ++ task :: (d.tasks ++ d.last.toList), callbacks := reply.callbacks + d.callbacks })
      ∧ Holds s' d.finish := by
  induction fuel generalizing s d task reply with
  | zero => omega
  | succ fuel ih =>
      rcases htasks : d.tasks with _ | ⟨next, rest⟩
      · rcases hlast : d.last with _ | last
        · obtain ⟨s', hpop, hs'⟩ := h.popTask_nil htasks hlast
          refine ⟨s', ?_, hs'⟩
          rw [dropTasks_succ hpop, dropTasks_none]
          rfl
        · obtain ⟨hpop, hs'⟩ := h.popTask_last htasks hlast
          rw [htasks, hlast] at hfuel
          obtain ⟨s', hrun, hs'⟩ := ih hs' last { reply with
            deleted := reply.deleted ++ [task], callbacks := reply.callbacks + 0 } (by
              rw [htasks]
              simpa using hfuel)
          refine ⟨s', ?_, hs'⟩
          rw [dropTasks_succ hpop, hrun, htasks]
          simp [TaskDeque.callbacks]
      · obtain ⟨s₁, hpop, -, hs₁⟩ := h.popTask_cons htasks
        rw [htasks, List.length_cons] at hfuel
        obtain ⟨s', hrun, hs'⟩ := ih hs₁ next { reply with
          deleted := reply.deleted ++ [task], callbacks := reply.callbacks + 0 } (by
            simp only
            omega)
        refine ⟨s', ?_, hs'⟩
        rw [dropTasks_succ hpop, hrun]
        simp [TaskDeque.callbacks]

theorem Holds.pop (h : Holds s d) : ∃ s', s.pop = some (s', d.pop.2) ∧ Holds s' d.pop.1 := by
  by_cases hcanceled : d.canceled = true
  · have hscanceled : s.canceled = true := h.canceled.trans hcanceled
    rw [TaskDeque.pop, if_pos hcanceled]
    rcases htasks : d.tasks with _ | ⟨task, rest⟩
    · rcases hlast : d.last with _ | last
      · obtain ⟨s', hpop, hs'⟩ := h.popTask_nil htasks hlast
        refine ⟨s', ?_, hs'⟩
        rw [pop_of_canceled hscanceled hpop, dropTasks_none]
        rfl
      · obtain ⟨hpop, hs'⟩ := h.popTask_last htasks hlast
        obtain ⟨s', hrun, hs'⟩ := hs'.dropTasks (s.queueSize + 1) last { task := none, deleted := [], callbacks := 0 }
          (by simp [htasks])
        refine ⟨s', ?_, hs'⟩
        rw [pop_of_canceled hscanceled hpop, hrun, htasks]
        simp [TaskDeque.callbacks]
    · obtain ⟨s₁, hpop, hsize, hs₁⟩ := h.popTask_cons htasks
      have hfits := h.fits
      rw [htasks, List.length_cons] at hfits
      obtain ⟨s', hrun, hs'⟩ := hs₁.dropTasks (s₁.queueSize + 1) task { task := none, deleted := [], callbacks := 0 } (by
          have : d.last.toList.length ≤ 1 := by cases d.last <;> simp
          simp only
          omega)
      refine ⟨s', ?_, hs'⟩
      rw [pop_of_canceled hscanceled hpop, hrun]
      simp [TaskDeque.callbacks]
  · have hscanceled : ¬ s.canceled = true := by rwa [h.canceled]
    rw [TaskDeque.pop, if_neg hcanceled]
    rcases htasks : d.tasks with _ | ⟨task, rest⟩
    · rcases hlast : d.last with _ | last
      · obtain ⟨s', hpop, hs'⟩ := h.popTask_nil htasks hlast
        refine ⟨s', ?_, hs'⟩
        rw [pop_of_not_canceled hscanceled hpop]
      · obtain ⟨hpop, hs'⟩ := h.popTask_last htasks hlast
        rw [htasks] at hs'
        refine ⟨_, ?_, hs'⟩
        rw [pop_of_not_canceled hscanceled hpop]
    · obtain ⟨s₁, hpop, -, hs₁⟩ := h.popTask_cons htasks
      refine ⟨s₁, ?_, hs₁⟩
      rw [pop_of_not_canceled hscanceled hpop]

theorem Holds.step (h : Holds s d) (op : SeriesOp T) :
    ∃ s', s.step op = some (s', (d.step op).2) ∧ Holds s' (d.step op).1 := by
  cases op with
  | pushBack task =>
      obtain ⟨s', hrun, hs'⟩ := h.pushBack task
      exact ⟨s', by rw [SeriesWork.step, hrun]; rfl, hs'⟩
  | pushFront task =>
      obtain ⟨s', hrun, hs'⟩ := h.pushFront task
      exact ⟨s', by rw [SeriesWork.step, hrun]; rfl, hs'⟩
  | pop => exact h.pop
  | cancel =>
      exact ⟨s.cancel, rfl, h.front_lt, h.fits, h.back, h.tasks, h.last, h.inParallel, rfl, h.callback, h.gone⟩

/-- The series and the sequence can be called the same way, with the same replies. -/
theorem Holds.run (h : Holds s d) (ops : List (SeriesOp T)) :
    s.run ops = none ∧ d.run ops = none
      ∨ ∃ s' d' replies, s.run ops = some (s', replies) ∧ d.run ops = some (d', replies) ∧ Holds s' d' := by
  induction ops generalizing s d with
  | nil => exact Or.inr ⟨s, d, [], rfl, rfl, h⟩
  | cons op ops ih =>
      by_cases hgone : d.gone = true
      · refine Or.inl ⟨?_, ?_⟩
        · rw [SeriesWork.run, if_pos (h.gone.trans hgone)]
        · rw [TaskDeque.run, if_pos hgone]
      · have hsgone : ¬ s.gone = true := by rwa [h.gone]
        obtain ⟨s', hstep, hs'⟩ := h.step op
        rw [SeriesWork.run, if_neg hsgone, TaskDeque.run, if_neg hgone, hstep]
        rcases ih hs' with ⟨hnone, hnone'⟩ | ⟨s'', d'', replies, hrun, hrun', hs''⟩
        · refine Or.inl ⟨?_, by rw [hnone']; rfl⟩
          simp only [Option.bind_eq_bind, Option.bind_some, hnone, Option.bind_none]
        · refine Or.inr ⟨s'', d'', (d.step op).2 :: replies, ?_, by rw [hrun']; rfl, hs''⟩
          simp only [Option.bind_eq_bind, Option.bind_some, hrun]

def SeriesOp.pushed : SeriesOp T → List T
  | .pushBack task => [task]
  | .pushFront task => [task]
  | .pop => []
  | .cancel => []

def pushed (ops : List (SeriesOp T)) : List T := ops.flatMap SeriesOp.pushed

/-- The tasks that came out again: returned, or deleted by a `pop` of a canceled series. -/
def takenOut (replies : List (Reply T)) : List T :=
  replies.flatMap fun reply => reply.task.toList ++ reply.deleted

def TaskDeque.left (d : TaskDeque T) : List T := d.tasks ++ d.last.toList

theorem TaskDeque.step_perm (d : TaskDeque T) (op : SeriesOp T) :
    ((d.step op).2.task.toList ++ (d.step op).2.deleted ++ (d.step op).1.left).Perm (op.pushed ++ d.left) := by
  cases op with
  | pushBack task =>
      simp only [TaskDeque.step, TaskDeque.left, Reply.nothing, SeriesOp.pushed, Option.toList_none,
        List.nil_append, List.append_assoc, List.singleton_append]
      exact List.perm_middle
  | pushFront task => exact List.Perm.refl _
  | cancel => exact List.Perm.refl _
  | pop =>
      simp only [TaskDeque.step, TaskDeque.pop]
      split
      · simp [TaskDeque.left, TaskDeque.finish, SeriesOp.pushed]
      · split
        · rename_i htasks
          simp [TaskDeque.left, SeriesOp.pushed, htasks]
        · rename_i htasks hlast
          simp [TaskDeque.left, SeriesOp.pushed, htasks, hlast]
        · rename_i htasks hlast
          simp [TaskDeque.left, TaskDeque.finish, SeriesOp.pushed, htasks, hlast]

theorem TaskDeque.run_perm {d d' : TaskDeque T} {ops : List (SeriesOp T)} {replies : List (Reply T)}
    (hrun : d.run ops = some (d', replies)) : (takenOut replies ++ d'.left).Perm (pushed ops ++ d.left) := by
  induction ops generalizing d d' replies with
  | nil =>
      cases hrun
      exact List.Perm.refl _
  | cons op ops ih =>
      rw [TaskDeque.run] at hrun
      split at hrun
      · cases hrun
      · simp only [Option.bind_eq_bind, Option.bind_eq_some_iff] at hrun
        obtain ⟨⟨e, rest⟩, hrest, hrun⟩ := hrun
        cases hrun
        have hstep := d.step_perm op
        calc
          takenOut ((d.step op).2 :: rest) ++ e.left
              = (d.step op).2.task.toList ++ (d.step op).2.deleted ++ (takenOut rest ++ e.left) := by
                rw [takenOut, List.flatMap_cons, List.append_assoc]
                rfl
          List.Perm _ ((d.step op).2.task.toList ++ (d.step op).2.deleted ++ (pushed ops ++ (d.step op).1.left)) :=
            (ih hrest).append_left _
          List.Perm _ (pushed ops ++ ((d.step op).2.task.toList ++ (d.step op).2.deleted ++ (d.step op).1.left)) :=
            List.perm_append_comm_assoc _ _ _
          List.Perm _ (pushed ops ++ (op.pushed ++ d.left)) := hstep.append_left _
          List.Perm _ (op.pushed ++ (pushed ops ++ d.left)) := List.perm_append_comm_assoc _ _ _
          _ = pushed (op :: ops) ++ d.left := by
            rw [← List.append_assoc]
            rfl

/-- A series answers every sequence of calls as the sequence of its tasks does, and each task that was put in comes
out once or is still there. -/
theorem series_run (last : Option T) (inParallel callback : Bool) (ops : List (SeriesOp T)) :
    ((SeriesWork.create last inParallel callback).run ops).map Prod.snd
        = ((TaskDeque.create last inParallel callback).run ops).map Prod.snd
      ∧ ∀ s replies, (SeriesWork.create last inParallel callback).run ops = some (s, replies) →
          ∃ tasks : List T, window s.queue s.queueSize s.front tasks.length = tasks.map some
            ∧ s.back = (s.front + tasks.length) % s.queueSize ∧ tasks.length < s.queueSize
            ∧ (takenOut replies ++ (tasks ++ s.last.toList)).Perm (pushed ops ++ last.toList) := by
  rcases (holds_create last inParallel callback).run ops with ⟨hnone, hnone'⟩ | ⟨s, d, replies, hrun, hrun', hs⟩
  · rw [hnone, hnone']
    exact ⟨rfl, fun _ _ hrun => nomatch hrun⟩
  · rw [hrun, hrun']
    refine ⟨rfl, ?_⟩
    rintro s₁ replies₁ hsame
    cases hsame
    refine ⟨d.tasks, hs.tasks, hs.back, hs.fits, ?_⟩
    have hperm := TaskDeque.run_perm hrun'
    rw [TaskDeque.left, ← hs.last] at hperm
    exact hperm

/-- Three pushes fill the ring in the middle, and the fourth finds a larger one. -/
example : ((SeriesWork.create (some 9) false true).run
    [.pushBack 1, .pushBack 2, .pop, .pushFront 3, .pushBack 4, .pushFront 5, .pop, .cancel, .pop]).map Prod.snd
      = some [.nothing, .nothing, ⟨some 1, [], 0⟩, .nothing, .nothing, .nothing, ⟨some 5, [], 0⟩, .nothing,
          ⟨none, [3, 2, 4, 9], 1⟩] := by decide +kernel

end WorkflowModel.Factory
