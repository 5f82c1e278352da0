import WorkflowModel.Factory.SeriesRun
import WorkflowModel.Proof.SeriesQueue

/-!
# What a turn does in the life of a series

The ring of the series is seen as the sequence of its tasks. Every turn that is possible has one of a few
effects on the sequence and on what the run keeps beside it.
-/

namespace WorkflowModel.Factory

open RingBuffer

variable {T : Type*}

def SeriesWork.tasks (series : SeriesWork T) : List T :=
  (window series.queue series.queueSize series.front
    ((series.back + (series.queueSize - series.front)) % series.queueSize)).filterMap id

def SeriesWork.deque (series : SeriesWork T) : TaskDeque T :=
  { tasks := series.tasks, last := series.last, inParallel := series.inParallel, canceled := series.canceled,
    callback := series.callback, gone := series.gone }

theorem Holds.tasks_eq {series : SeriesWork T} {d : TaskDeque T} (h : Holds series d) : series.tasks = d.tasks := by
  have hlt := h.front_lt
  have hlength : (series.back + (series.queueSize - series.front)) % series.queueSize = d.tasks.length := by
    rw [h.back, Nat.mod_add_mod]
    rw [show series.front + d.tasks.length + (series.queueSize - series.front) = d.tasks.length + series.queueSize by
      omega, Nat.add_mod_right, Nat.mod_eq_of_lt h.fits]
  rw [SeriesWork.tasks, hlength, h.tasks, List.filterMap_map]
  exact List.filterMap_some

theorem Holds.deque_eq {series : SeriesWork T} {d : TaskDeque T} (h : Holds series d) : series.deque = d := by
  rw [SeriesWork.deque, h.tasks_eq, h.last, h.inParallel, h.canceled, h.callback, h.gone]

/-- What a section of `pop_task` finds. -/
inductive Popped (d : TaskDeque T) : Option T → TaskDeque T → Prop where
  | front (task : T) (rest : List T) (htasks : d.tasks = task :: rest) :
      Popped d (some task) { d with tasks := rest }
  | last (task : T) (htasks : d.tasks = []) (hlast : d.last = some task) : Popped d (some task) { d with last := none }
  | empty (htasks : d.tasks = []) (hlast : d.last = none) : Popped d none d.finish

theorem Holds.popTask {series : SeriesWork T} {d : TaskDeque T} (h : Holds series d) :
    ∃ series' task e, series.popTask = (series', task, if task = none then d.callbacks else 0) ∧ Popped d task e
      ∧ Holds series' e := by
  rcases htasks : d.tasks with _ | ⟨task, rest⟩
  · rcases hlast : d.last with _ | last
    · obtain ⟨series', hpop, hseries'⟩ := h.popTask_nil htasks hlast
      exact ⟨series', none, d.finish, hpop, .empty htasks hlast, hseries'⟩
    · obtain ⟨hpop, hseries'⟩ := h.popTask_last htasks hlast
      exact ⟨_, some last, _, hpop, .last last htasks hlast, hseries'⟩
  · obtain ⟨series', hpop, -, hseries'⟩ := h.popTask_cons htasks
    exact ⟨series', some task, _, hpop, .front task rest htasks, hseries'⟩

theorem Popped.left_eq {d e : TaskDeque T} {task : Option T} (h : Popped d task e) :
    d.left = task.toList ++ e.left := by
  cases h with
  | front task rest htasks => simp [TaskDeque.left, htasks]
  | last task htasks hlast => simp [TaskDeque.left, htasks, hlast]
  | empty htasks hlast => simp [TaskDeque.left, TaskDeque.finish, htasks, hlast]

theorem Popped.finish_eq {d e : TaskDeque T} (h : Popped d none e) : e = d.finish := by
  cases h
  rfl

theorem Popped.length_left {d e : TaskDeque T} {task : T} (h : Popped d (some task) e) :
    d.left.length = e.left.length + 1 := by
  rw [h.left_eq]
  simp

theorem Popped.tasks_sublist {d e : TaskDeque T} {task : T} (h : Popped d (some task) e) :
    d.tasks.Sublist (task :: e.tasks) := by
  cases h with
  | front task rest htasks => rw [htasks]
  | last task htasks hlast =>
      rw [htasks]
      exact List.nil_sublist _

theorem Popped.tasks_eq_nil {d e : TaskDeque T} (h : Popped d none e) : d.tasks = [] := by
  cases h
  assumption

/-- A section of `pop_task` that finds a task leaves the flags of the series as they are. -/
structure SameFlags (d e : TaskDeque T) : Prop where
  inParallel : e.inParallel = d.inParallel
  canceled : e.canceled = d.canceled
  callback : e.callback = d.callback
  gone : e.gone = d.gone

theorem Popped.sameFlags {d e : TaskDeque T} {task : T} (h : Popped d (some task) e) : SameFlags d e := by
  cases h <;> exact ⟨rfl, rfl, rfl, rfl⟩

namespace SeriesRun

variable {s t : State T}

def State.Sound (s : State T) : Prop := Holds s.series s.series.deque

theorem sound_create (first : T) (last : Option T) (inParallel callback : Bool) :
    (create first last inParallel callback).Sound := by
  have h := holds_create last inParallel callback
  unfold State.Sound
  rwa [show (create first last inParallel callback).series.deque = TaskDeque.create last inParallel callback from
    h.deque_eq]

theorem State.Sound.pushFront (hs : s.Sound) (task : T) :
    ∃ series, s.series.pushFront task = some series
      ∧ series.deque = { s.series.deque with tasks := task :: s.series.tasks } ∧ Holds series series.deque := by
  obtain ⟨series, hpush, hseries⟩ := Holds.pushFront hs task
  exact ⟨series, hpush, hseries.deque_eq, hseries.deque_eq ▸ hseries⟩

theorem State.Sound.pushBack (hs : s.Sound) (task : T) :
    ∃ series, s.series.pushBack task = some series
      ∧ series.deque = { s.series.deque with tasks := s.series.tasks ++ [task] } ∧ Holds series series.deque := by
  obtain ⟨series, hpush, hseries⟩ := Holds.pushBack hs task
  exact ⟨series, hpush, hseries.deque_eq, hseries.deque_eq ▸ hseries⟩

theorem State.Sound.dismissRecursive (hs : s.Sound) :
    ∃ series, dismissRecursive s.series s.first
        = some (series, { task := none, deleted := s.first :: s.series.deque.left, callbacks := 0 })
      ∧ series.deque = { s.series.deque with inParallel := false, callback := false }.finish
      ∧ Holds series series.deque := by
  have hquiet : Holds { s.series with inParallel := false, callback := false }
      { s.series.deque with inParallel := false, callback := false } :=
    ⟨hs.front_lt, hs.fits, hs.back, hs.tasks, hs.last, rfl, hs.canceled, rfl, hs.gone⟩
  have hone : s.series.last.toList.length ≤ 1 := by cases s.series.last <;> simp
  obtain ⟨series, hdrop, hseries⟩ := hquiet.dropTasks (s.series.queueSize + 1) s.first .nothing (by
    have := hs.fits
    simp only [SeriesWork.deque] at this ⊢
    omega)
  exact ⟨series, hdrop, hseries.deque_eq, hseries.deque_eq ▸ hseries⟩

theorem State.Sound.popTask (hs : s.Sound) (canceled : Bool) :
    (∃ task series, Popped s.series.deque (some task) series.deque ∧ Holds series series.deque
        ∧ s.popTask canceled = if canceled = true then { s with series := series, phase := .dropping task }
          else { s with series := series, phase := .running task, dispatched := s.dispatched ++ [task] })
      ∨ ∃ series, Popped s.series.deque none series.deque ∧ Holds series series.deque
        ∧ s.popTask canceled
          = { s with series := series, phase := .ended, callbacks := s.callbacks + s.series.deque.callbacks } := by
  obtain ⟨series, task, e, hpop, hpopped, hseries⟩ := Holds.popTask hs
  obtain rfl := hseries.deque_eq
  cases task with
  | none => exact .inr ⟨series, hpopped, hseries, by rw [State.popTask, hpop]; rfl⟩
  | some task => exact .inl ⟨task, series, hpopped, hseries, by rw [State.popTask, hpop]⟩

variable [DecidableEq T]

/-- The turns, with the sequence of the series after them. -/
inductive Effect (s : State T) : Turn T → State T → Prop where
  | start (hphase : s.phase = .created) :
      Effect s .start { s with phase := .running s.first, dispatched := s.dispatched ++ [s.first] }
  | dismiss (series : SeriesWork T) (hphase : s.phase = .created) (hparallel : s.series.inParallel = false)
      (hseries : series.deque = { s.series.deque with callback := false }.finish) :
      Effect s .dismiss
        { s with series := series, phase := .ended, dropped := s.dropped ++ s.first :: s.series.deque.left }
  | pushBack (task : T) (series : SeriesWork T) (hphase : s.phase ≠ .ended)
      (hseries : series.deque = { s.series.deque with tasks := s.series.tasks ++ [task] }) :
      Effect s (.pushBack task) { s with series := series }
  | pushFront (task : T) (series : SeriesWork T) (hphase : s.phase ≠ .ended)
      (hseries : series.deque = { s.series.deque with tasks := task :: s.series.tasks }) :
      Effect s (.pushFront task) { s with series := series }
  | cancel (hphase : s.phase ≠ .ended) : Effect s .cancel { s with series := s.series.cancel }
  | setCallback (callback : Bool) (hphase : s.phase ≠ .ended) :
      Effect s (.setCallback callback) { s with series := { s.series with callback := callback } }
  | route (task helper : T) (series : SeriesWork T) (hphase : s.phase = .running task)
      (hseries : series.deque = { s.series.deque with tasks := helper :: s.series.tasks }) :
      Effect s (.route helper)
        { s with series := series, phase := .leaving, waiting := (helper, task) :: s.waiting }
  | resume (task helper held : T) (series : SeriesWork T) (hphase : s.phase = .running task)
      (hheld : (helper, held) ∈ s.waiting)
      (hseries : series.deque = { s.series.deque with tasks := held :: s.series.tasks }) :
      Effect s (.resume helper held) { s with series := series, waiting := s.waiting.erase (helper, held) }
  | abandon (task helper held : T) (hphase : s.phase = .running task) (hheld : (helper, held) ∈ s.waiting)
      (hfree : ¬ s.IsHelper held) :
      Effect s (.abandon helper held)
        { s with waiting := s.waiting.erase (helper, held), finished := s.finished ++ [held] }
  | finish (task : T) (hphase : s.phase = .running task) (hfree : ¬ s.IsHelper task) :
      Effect s .finish { s with phase := .leaving, finished := s.finished ++ [task] }
  | again (task : T) (series : SeriesWork T) (hphase : s.phase = .running task)
      (hseries : series.deque = { s.series.deque with tasks := task :: s.series.tasks }) :
      Effect s .again { s with series := series, phase := .leaving }
  | forget (task : T) (hphase : s.phase = .running task) (hfree : ¬ s.IsHelper task) :
      Effect s .forget { s with phase := .leaving, forgotten := s.forgotten ++ [task] }
  | readCanceled (hphase : s.phase = .leaving) :
      Effect s .readCanceled { s with phase := .popping s.series.canceled }
  | popRun (task : T) (series : SeriesWork T) (hphase : s.phase = .popping false)
      (hpop : Popped s.series.deque (some task) series.deque) :
      Effect s .popTask { s with series := series, phase := .running task, dispatched := s.dispatched ++ [task] }
  | popDrop (task : T) (series : SeriesWork T) (hphase : s.phase = .popping true)
      (hpop : Popped s.series.deque (some task) series.deque) :
      Effect s .popTask { s with series := series, phase := .dropping task }
  | popEnd (canceled : Bool) (series : SeriesWork T) (hphase : s.phase = .popping canceled)
      (hpop : Popped s.series.deque none series.deque) :
      Effect s .popTask
        { s with series := series, phase := .ended, callbacks := s.callbacks + s.series.deque.callbacks }
  | deleteNext (out task : T) (series : SeriesWork T) (hphase : s.phase = .dropping out)
      (hpop : Popped s.series.deque (some task) series.deque) :
      Effect s .delete { s with series := series, phase := .dropping task, dropped := s.dropped ++ [out] }
  | deleteLast (out : T) (series : SeriesWork T) (hphase : s.phase = .dropping out)
      (hpop : Popped s.series.deque none series.deque) :
      Effect s .delete { s with
        series := series, phase := .ended, dropped := s.dropped ++ [out],
        callbacks := s.callbacks + s.series.deque.callbacks }

theorem effect_of_stepRunning {task : T} {turn : Turn T} (hs : s.Sound) (hphase : s.phase = .running task)
    (h : stepRunning s task turn = some t) : Effect s turn t ∧ t.Sound := by
  cases turn with
  | route helper =>
      obtain ⟨series, hpush, hseries, hsound⟩ := hs.pushFront helper
      rw [stepRunning, hpush] at h
      obtain rfl := Option.some.inj h
      exact ⟨.route task helper series hphase hseries, hsound⟩
  | resume helper held =>
      obtain ⟨series, hpush, hseries, hsound⟩ := hs.pushFront held
      rw [stepRunning, hpush] at h
      obtain ⟨⟨-, hheld⟩, h⟩ := Option.ite_none_right_eq_some.mp h
      obtain rfl := Option.some.inj h
      exact ⟨.resume task helper held series hphase hheld hseries, hsound⟩
  | abandon helper held =>
      obtain ⟨⟨-, hheld, hfree⟩, h⟩ := Option.ite_none_right_eq_some.mp h
      obtain rfl := Option.some.inj h
      exact ⟨.abandon task helper held hphase hheld hfree, hs⟩
  | finish =>
      obtain ⟨hfree, h⟩ := Option.ite_none_left_eq_some.mp h
      obtain rfl := Option.some.inj h
      exact ⟨.finish task hphase hfree, hs⟩
  | again =>
      obtain ⟨series, hpush, hseries, hsound⟩ := hs.pushFront task
      rw [stepRunning, hpush] at h
      obtain rfl := Option.some.inj h
      exact ⟨.again task series hphase hseries, hsound⟩
  | forget =>
      obtain ⟨hfree, h⟩ := Option.ite_none_left_eq_some.mp h
      obtain rfl := Option.some.inj h
      exact ⟨.forget task hphase hfree, hs⟩
  | start => cases h
  | dismiss => cases h
  | pushBack => cases h
  | pushFront => cases h
  | cancel => cases h
  | setCallback => cases h
  | readCanceled => cases h
  | popTask => cases h
  | delete => cases h

theorem effect_of_stepCurrent {turn : Turn T} (hs : s.Sound) (h : stepCurrent s turn = some t) :
    Effect s turn t ∧ t.Sound := by
  unfold stepCurrent at h
  split at h
  next hphase =>
    obtain rfl := Option.some.inj h
    exact ⟨.start hphase, hs⟩
  next hphase =>
    obtain ⟨hparallel, h⟩ := Option.ite_none_left_eq_some.mp h
    obtain ⟨series, hdismiss, hseries, hsound⟩ := hs.dismissRecursive
    rw [hdismiss] at h
    obtain rfl := Option.some.inj h
    have hparallel : s.series.inParallel = false := by simpa using hparallel
    refine ⟨.dismiss series hphase hparallel ?_, hsound⟩
    rw [hseries, ← hparallel]
    rfl
  next task turn hphase => exact effect_of_stepRunning hs hphase h
  next hphase =>
    obtain rfl := Option.some.inj h
    exact ⟨.readCanceled hphase, hs⟩
  next canceled hphase =>
    obtain rfl := Option.some.inj h
    obtain ⟨task, series, hpop, hseries, heq⟩ | ⟨series, hpop, hseries, heq⟩ := hs.popTask canceled
    · cases canceled with
      | false =>
          rw [if_neg (by simp)] at heq
          exact heq ▸ ⟨.popRun task series hphase hpop, hseries⟩
      | true =>
          rw [if_pos rfl] at heq
          exact heq ▸ ⟨.popDrop task series hphase hpop, hseries⟩
    · exact heq ▸ ⟨.popEnd canceled series hphase hpop, hseries⟩
  next out hphase =>
    obtain rfl := Option.some.inj h
    have hout : State.Sound { s with dropped := s.dropped ++ [out] } := hs
    obtain ⟨task, series, hpop, hseries, heq⟩ | ⟨series, hpop, hseries, heq⟩ := hout.popTask true
    · rw [if_pos rfl] at heq
      exact heq ▸ ⟨.deleteNext out task series hphase hpop, hseries⟩
    · exact heq ▸ ⟨.deleteLast out series hphase hpop, hseries⟩
  next => cases h

theorem effect_of_stepShared {turn : Turn T} (hs : s.Sound) (hphase : s.phase ≠ .ended)
    (h : stepShared s turn = some t) : Effect s turn t ∧ t.Sound := by
  cases turn with
  | pushBack task =>
      obtain ⟨series, hpush, hseries, hsound⟩ := hs.pushBack task
      rw [stepShared, hpush] at h
      obtain rfl := Option.some.inj h
      exact ⟨.pushBack task series hphase hseries, hsound⟩
  | pushFront task =>
      obtain ⟨series, hpush, hseries, hsound⟩ := hs.pushFront task
      rw [stepShared, hpush] at h
      obtain rfl := Option.some.inj h
      exact ⟨.pushFront task series hphase hseries, hsound⟩
  | cancel =>
      obtain rfl := Option.some.inj h
      exact ⟨.cancel hphase, hs.front_lt, hs.fits, hs.back, hs.tasks, rfl, rfl, rfl, rfl, rfl⟩
  | setCallback callback =>
      obtain rfl := Option.some.inj h
      exact ⟨.setCallback callback hphase, hs.front_lt, hs.fits, hs.back, hs.tasks, rfl, rfl, rfl, rfl, rfl⟩
  | _ => cases h

theorem effect_of_step {turn : Turn T} (hs : s.Sound) (h : step s turn = some t) : Effect s turn t ∧ t.Sound := by
  obtain ⟨hphase, h⟩ := Option.ite_none_left_eq_some.mp h
  split at h
  next => exact effect_of_stepShared hs hphase h
  next => exact effect_of_stepShared hs hphase h
  next => exact effect_of_stepShared hs hphase h
  next => exact effect_of_stepShared hs hphase h
  next => exact effect_of_stepCurrent hs h

end SeriesRun

end WorkflowModel.Factory
