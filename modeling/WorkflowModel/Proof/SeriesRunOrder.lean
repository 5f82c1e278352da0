import WorkflowModel.Proof.SeriesRunTasks

/-!
# The order of the tasks of a series

The first task and those that are pushed at the back come to their turn in this order, whatever is put at the front
meanwhile. After the series has been canceled no more tasks are dispatched, but for one that was on its way.
-/

namespace WorkflowModel.Factory.SeriesRun

variable {T : Type*} {s t : State T}

def Turn.pushedBack : Turn T → List T
  | .pushBack task => [task]
  | _ => []

def Phase.pending (first : T) : Phase T → List T
  | .created => [first]
  | .dropping task => [task]
  | _ => []

/-- The tasks in the order in which they are dispatched or dropped, as far as it is known. The last task is not among
those to come, as others may still be pushed before it. -/
def State.sequence (s : State T) : List T :=
  s.dispatched ++ s.dropped ++ (s.phase.pending s.first ++ s.series.deque.tasks)

theorem sequence_pushFront {before after : SeriesWork T} {task : T}
    (h : after.deque = { before.deque with tasks := task :: before.tasks }) (done : List T) :
    (done ++ before.deque.tasks).Sublist (done ++ after.deque.tasks) := by
  apply List.Sublist.append_left
  rw [h]
  exact List.sublist_cons_self task before.tasks

variable [DecidableEq T]

theorem sequence_of_effect {turn : Turn T} (he : Effect s turn t) (h : s.Drops) :
    (s.sequence ++ turn.pushedBack).Sublist t.sequence := by
  have hnil := h.dropped_eq_nil he.phase_ne
  cases he with
  | start hphase =>
      have hdropped := hnil (by rw [hphase]; rfl)
      simp [State.sequence, hphase, hdropped, Phase.pending, Turn.pushedBack]
  | dismiss series hphase hparallel hseries =>
      simp [State.sequence, hphase, Phase.pending, Turn.pushedBack, TaskDeque.left]
  | pushBack task series hphase hseries =>
      simp only [State.sequence, hseries, Turn.pushedBack]
      simp [SeriesWork.deque]
  | pushFront task series hphase hseries =>
      simp only [State.sequence, Turn.pushedBack, List.append_nil, ← List.append_assoc]
      exact sequence_pushFront hseries _
  | cancel hphase => simp [State.sequence, Turn.pushedBack, SeriesWork.cancel, SeriesWork.deque, SeriesWork.tasks]
  | setCallback callback hphase => simp [State.sequence, Turn.pushedBack, SeriesWork.deque, SeriesWork.tasks]
  | route task helper series hphase hseries =>
      simp only [State.sequence, hphase, Phase.pending, Turn.pushedBack, List.append_nil, List.nil_append]
      exact sequence_pushFront hseries _
  | resume task helper held series hphase hheld hseries =>
      simp only [State.sequence, Turn.pushedBack, List.append_nil, ← List.append_assoc]
      exact sequence_pushFront hseries _
  | abandon task helper held hphase hheld hfree => simp [State.sequence, Turn.pushedBack]
  | finish task hphase hfree => simp [State.sequence, hphase, Phase.pending, Turn.pushedBack]
  | again task series hphase hseries =>
      simp only [State.sequence, hphase, Phase.pending, Turn.pushedBack, List.append_nil, List.nil_append]
      exact sequence_pushFront hseries _
  | forget task hphase hfree => simp [State.sequence, hphase, Phase.pending, Turn.pushedBack]
  | readCanceled hphase => simp [State.sequence, hphase, Phase.pending, Turn.pushedBack]
  | popRun task series hphase hpop =>
      have hdropped := hnil (by rw [hphase]; rfl)
      simp only [State.sequence, hphase, hdropped, Phase.pending, Turn.pushedBack, List.append_nil, List.nil_append,
        List.append_assoc, List.singleton_append]
      exact hpop.tasks_sublist.append_left _
  | popDrop task series hphase hpop =>
      simp only [State.sequence, hphase, Phase.pending, Turn.pushedBack, List.append_nil, List.nil_append,
        List.singleton_append]
      exact hpop.tasks_sublist.append_left _
  | popEnd canceled series hphase hpop =>
      simp [State.sequence, hphase, Phase.pending, Turn.pushedBack, hpop.tasks_eq_nil]
  | deleteNext out task series hphase hpop =>
      simp only [State.sequence, hphase, Phase.pending, Turn.pushedBack, List.append_nil, List.append_assoc,
        List.singleton_append]
      exact (hpop.tasks_sublist.cons_cons out).append_left _ |>.append_left _
  | deleteLast out series hphase hpop =>
      simp [State.sequence, hphase, Phase.pending, Turn.pushedBack, hpop.tasks_eq_nil]

variable {first : T} {last : Option T} {inParallel callback : Bool} {turns more : List (Turn T)}

theorem sequence_of_replay (h : s.Kept) (hrun : Replay.replay step s turns = some t) :
    (s.sequence ++ turns.flatMap Turn.pushedBack).Sublist t.sequence := by
  refine (Replay.replay_relates (P := State.Kept)
    (R := fun turns s t => (s.sequence ++ turns.flatMap Turn.pushedBack).Sublist t.sequence)
    (fun s i t h hstep => kept_of_step h hstep) (fun s => ?_) (fun turn turns s t u h hstep hrel => ?_) h hrun).2
  · rw [List.flatMap_nil, List.append_nil]
  · have hone := sequence_of_effect (effect_of_step h.sound hstep).1 h.drops
    rw [List.flatMap_cons, ← List.append_assoc]
    exact (hone.append_right _).trans hrel

/-- Tasks that are pushed at the back are dispatched or dropped in the order they were pushed in, after the first. -/
theorem order_of_run (hrun : run first last inParallel callback turns = some s) :
    (first :: turns.flatMap Turn.pushedBack).Sublist
      (s.dispatched ++ s.dropped ++ (s.phase.pending s.first ++ s.series.tasks)) := by
  have hcreate := kept_create first last inParallel callback
  have horder := sequence_of_replay hcreate hrun
  have htasks : (create first last inParallel callback).series.tasks = [] :=
    (holds_create last inParallel callback).tasks_eq
  rwa [show (create first last inParallel callback).sequence = [first] from by
    rw [State.sequence, SeriesWork.deque, htasks]; rfl] at horder

theorem order_of_run_pushed : ∃ s,
    run 1 (some 9) false true [.pushBack 2, .start, .pushBack 3, .pushFront 7, .finish, .readCanceled, .popTask, .again,
      .pushBack 4, .readCanceled, .popTask, .finish, .readCanceled, .popTask] = some s
      ∧ s.dispatched = [1, 7, 7, 2] ∧ s.dropped = []
      ∧ [1, 2, 3, 4].Sublist ([1, 7, 7, 2] ++ [] ++ (s.phase.pending s.first ++ s.series.tasks)) := by
  obtain ⟨s, hrun⟩ : ∃ s, run 1 (some 9) false true [.pushBack 2, .start, .pushBack 3, .pushFront 7, .finish,
      .readCanceled, .popTask, .again, .pushBack 4, .readCanceled, .popTask, .finish, .readCanceled, .popTask]
        = some s := ⟨_, rfl⟩
  have hlogs : s.dispatched = [1, 7, 7, 2] ∧ s.dropped = [] := by
    obtain rfl := Option.some.inj hrun
    exact ⟨rfl, rfl⟩
  have horder := order_of_run hrun
  rw [hlogs.1, hlogs.2] at horder
  exact ⟨s, hrun, hlogs.1, hlogs.2, horder⟩

/-- How many tasks may still be dispatched in a series that was canceled: the first task of one that has not started,
and the one that a call of `pop` is about to take that has found the series not canceled yet. -/
def Phase.onItsWay : Phase T → Nat
  | .created | .popping false => 1
  | _ => 0

theorem dispatched_of_effect {turn : Turn T} (he : Effect s turn t) (hcanceled : s.series.deque.canceled = true) :
    t.series.deque.canceled = true
      ∧ ∃ new, t.dispatched = s.dispatched ++ new ∧ new.length + t.phase.onItsWay ≤ s.phase.onItsWay := by
  cases he with
  | start hphase => exact ⟨hcanceled, [s.first], rfl, by rw [hphase]; exact Nat.le_refl 1⟩
  | dismiss series hphase hparallel hseries =>
      exact ⟨by simp only [hseries]; exact hcanceled, [], by simp, Nat.zero_le _⟩
  | pushBack task series hphase hseries =>
      exact ⟨by simp only [hseries]; exact hcanceled, [], by simp, by simp⟩
  | pushFront task series hphase hseries =>
      exact ⟨by simp only [hseries]; exact hcanceled, [], by simp, by simp⟩
  | cancel hphase => exact ⟨rfl, [], by simp, by simp⟩
  | setCallback callback hphase => exact ⟨hcanceled, [], by simp, by simp⟩
  | route task helper series hphase hseries =>
      exact ⟨by simp only [hseries]; exact hcanceled, [], by simp, Nat.zero_le _⟩
  | resume task helper held series hphase hheld hseries =>
      exact ⟨by simp only [hseries]; exact hcanceled, [], by simp, by simp⟩
  | abandon task helper held hphase hheld hfree => exact ⟨hcanceled, [], by simp, by simp⟩
  | finish task hphase hfree => exact ⟨hcanceled, [], by simp, Nat.zero_le _⟩
  | again task series hphase hseries =>
      exact ⟨by simp only [hseries]; exact hcanceled, [], by simp, Nat.zero_le _⟩
  | forget task hphase hfree => exact ⟨hcanceled, [], by simp, Nat.zero_le _⟩
  | readCanceled hphase =>
      have hflag : s.series.canceled = true := hcanceled
      exact ⟨hcanceled, [], by simp, by simp only [hflag]; exact Nat.zero_le _⟩
  | popRun task series hphase hpop =>
      exact ⟨hpop.sameFlags.canceled.trans hcanceled, [task], rfl, by rw [hphase]; exact Nat.le_refl 1⟩
  | popDrop task series hphase hpop =>
      exact ⟨hpop.sameFlags.canceled.trans hcanceled, [], by simp, Nat.zero_le _⟩
  | popEnd canceled series hphase hpop =>
      exact ⟨by simp only [hpop.finish_eq]; exact hcanceled, [], by simp, Nat.zero_le _⟩
  | deleteNext out task series hphase hpop =>
      exact ⟨hpop.sameFlags.canceled.trans hcanceled, [], by simp, Nat.zero_le _⟩
  | deleteLast out series hphase hpop =>
      exact ⟨by simp only [hpop.finish_eq]; exact hcanceled, [], by simp, Nat.zero_le _⟩

/-- What is dispatched after a cancelation was on its way. -/
theorem dispatched_of_canceled (hrun : run first last inParallel callback turns = some s)
    (hcanceled : s.series.canceled = true) (hmore : Replay.replay step s more = some t) :
    t.series.canceled = true
      ∧ ∃ new, t.dispatched = s.dispatched ++ new ∧ new.length ≤ s.phase.onItsWay := by
  have hstays := (Replay.replay_relates (P := State.Kept)
    (R := fun _ s t => s.series.deque.canceled = true → t.series.deque.canceled = true
      ∧ ∃ new, t.dispatched = s.dispatched ++ new ∧ new.length + t.phase.onItsWay ≤ s.phase.onItsWay)
    (fun s i t h hstep => kept_of_step h hstep) (fun s hs => ⟨hs, [], by simp, by simp⟩)
    (fun turn turns s t u h hstep hrel hs => by
      obtain ⟨ht, new, hnew, hlength⟩ := dispatched_of_effect (effect_of_step h.sound hstep).1 hs
      obtain ⟨hu, newer, hnewer, hshorter⟩ := hrel ht
      refine ⟨hu, new ++ newer, ?_, ?_⟩
      · rw [hnewer, hnew, List.append_assoc]
      · rw [List.length_append]
        omega)
    (kept_of_run hrun).1 hmore).2
  obtain ⟨ht, new, hnew, hlength⟩ := hstays hcanceled
  exact ⟨ht, new, hnew, Nat.le_of_add_right_le hlength⟩

/-- The cancelation comes between the two steps of `pop`, and the task 2 is dispatched after it. -/
theorem dispatched_of_canceled_late : ∃ s t,
    run 1 none false true [.pushBack 2, .pushBack 3, .start, .finish, .readCanceled, .cancel] = some s
      ∧ Replay.replay step s [.popTask, .finish, .readCanceled, .popTask, .delete] = some t
      ∧ t.dispatched = [1, 2] ∧ t.dropped = [3]
      ∧ ∃ new, t.dispatched = [1] ++ new ∧ new.length ≤ 1 := by
  obtain ⟨s, hrun⟩ : ∃ s,
      run 1 none false true [.pushBack 2, .pushBack 3, .start, .finish, .readCanceled, .cancel] = some s := ⟨_, rfl⟩
  have hs : s.series.canceled = true ∧ s.dispatched = [1] ∧ s.phase = .popping false := by
    obtain rfl := Option.some.inj hrun
    exact ⟨rfl, rfl, rfl⟩
  obtain ⟨t, hmore, hlogs⟩ : ∃ t, Replay.replay step s [.popTask, .finish, .readCanceled, .popTask, .delete] = some t
      ∧ t.dispatched = [1, 2] ∧ t.dropped = [3] := by
    obtain rfl := Option.some.inj hrun
    exact ⟨_, rfl, rfl, rfl⟩
  obtain ⟨-, new, hnew, hlength⟩ := dispatched_of_canceled hrun hs.1 hmore
  rw [hs.2.1] at hnew
  rw [hs.2.2] at hlength
  exact ⟨s, t, hrun, hmore, hlogs.1, hlogs.2, new, hnew, hlength⟩

end WorkflowModel.Factory.SeriesRun
