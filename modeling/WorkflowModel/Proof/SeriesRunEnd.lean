import WorkflowModel.Lib.Progress
import WorkflowModel.Proof.SeriesRunTasks

/-!
# A series comes to its end

As long as nobody pushes a task and no task runs again, every turn brings the series closer to its end, and until then
there is one that can be made.
-/

namespace WorkflowModel.Factory.SeriesRun

variable {T : Type*} {s t : State T}

/-- A turn that puts no task into the series and no task at the front again that has run. -/
def Turn.quiet : Turn T → Bool
  | .start | .dismiss | .resume _ _ | .abandon _ _ | .finish | .forget | .readCanceled | .popTask | .delete => true
  | _ => false

/-- The turns that are left until the task is gone and `pop` has looked for the next one. -/
def Phase.work : Phase T → Nat
  | .created => 4
  | .running _ => 3
  | .leaving => 2
  | .popping _ => 1
  | .dropping _ => 1
  | .ended => 0

def State.work (s : State T) : Nat := s.phase.work + 4 * s.series.deque.left.length + 5 * s.waiting.length

variable [DecidableEq T]

theorem work_lt_of_effect {turn : Turn T} (he : Effect s turn t) (hquiet : turn.quiet = true) : t.work < s.work := by
  cases he with
  | start hphase => simp only [State.work, hphase, Phase.work]; omega
  | dismiss series hphase hparallel hseries =>
      simp only [State.work, hphase, hseries, Phase.work, left_finish, List.length_nil]
      omega
  | pushBack task series hphase hseries => cases hquiet
  | pushFront task series hphase hseries => cases hquiet
  | cancel hphase => cases hquiet
  | setCallback callback hphase => cases hquiet
  | route task helper series hphase hseries => cases hquiet
  | resume task helper held series hphase hheld hseries =>
      have hlength := List.length_erase_of_mem hheld
      have hpos := List.length_pos_of_mem hheld
      simp only [State.work, left_pushFront hseries, List.length_cons, hlength]
      omega
  | abandon task helper held hphase hheld hfree =>
      have hlength := List.length_erase_of_mem hheld
      have hpos := List.length_pos_of_mem hheld
      simp only [State.work, hlength]
      omega
  | finish task hphase hfree => simp only [State.work, hphase, Phase.work]; omega
  | again task series hphase hseries => cases hquiet
  | forget task hphase hfree => simp only [State.work, hphase, Phase.work]; omega
  | readCanceled hphase => simp only [State.work, hphase, Phase.work]; omega
  | popRun task series hphase hpop =>
      have hlength := hpop.length_left
      simp only [State.work, hphase, Phase.work]
      omega
  | popDrop task series hphase hpop =>
      have hlength := hpop.length_left
      simp only [State.work, hphase, Phase.work]
      omega
  | popEnd canceled series hphase hpop =>
      simp only [State.work, hphase, Phase.work, hpop.finish_eq, left_finish, List.length_nil]
      omega
  | deleteNext out task series hphase hpop =>
      have hlength := hpop.length_left
      simp only [State.work, hphase, Phase.work]
      omega
  | deleteLast out series hphase hpop =>
      simp only [State.work, hphase, Phase.work, hpop.finish_eq, left_finish, List.length_nil]
      omega

theorem step_eq_stepCurrent {turn : Turn T} (hended : s.phase ≠ .ended) (hquiet : turn.quiet = true) :
    step s turn = stepCurrent s turn := by
  unfold step
  rw [if_neg hended]
  cases turn <;> first | rfl | cases hquiet

/-- The running task is done, unless it is a helper, whose callback puts back the task that it holds. -/
theorem exists_quiet (hs : s.Sound) (hended : s.phase ≠ .ended) :
    ∃ turn, turn.quiet = true ∧ (step s turn).isSome = true := by
  suffices h : ∃ turn : Turn T, turn.quiet = true ∧ (stepCurrent s turn).isSome = true by
    obtain ⟨turn, hquiet, hstep⟩ := h
    exact ⟨turn, hquiet, by rwa [step_eq_stepCurrent hended hquiet]⟩
  cases hphase : s.phase with
  | created => exact ⟨.start, rfl, by simp only [stepCurrent, hphase, Option.isSome_some]⟩
  | running task =>
      by_cases hhelper : s.IsHelper task
      · obtain ⟨pair, hheld, heq⟩ := List.mem_map.mp hhelper
        have hhelps : s.Helps task pair.1 := Or.inl heq
        obtain ⟨series, hpush, -⟩ := hs.pushFront pair.2
        refine ⟨.resume pair.1 pair.2, rfl, ?_⟩
        simp only [stepCurrent, hphase, stepRunning]
        rw [if_pos ⟨hhelps, hheld⟩, hpush]
        rfl
      · refine ⟨.finish, rfl, ?_⟩
        simp only [stepCurrent, hphase, stepRunning]
        rw [if_neg hhelper]
        rfl
  | leaving => exact ⟨.readCanceled, rfl, by simp only [stepCurrent, hphase, Option.isSome_some]⟩
  | popping canceled => exact ⟨.popTask, rfl, by simp only [stepCurrent, hphase, Option.isSome_some]⟩
  | dropping task => exact ⟨.delete, rfl, by simp only [stepCurrent, hphase, Option.isSome_some]⟩
  | ended => exact absurd hphase hended

theorem decreases_work :
    Replay.Decreases (step (T := T)) State.Kept (fun turn => turn.quiet = true) State.work where
  keeps := fun _ _ _ hs _ hstep => kept_of_step hs hstep
  lt := fun _ _ _ hs hquiet hstep => work_lt_of_effect (effect_of_step hs.sound hstep).1 hquiet

variable {first : T} {last : Option T} {inParallel callback : Bool} {turns more : List (Turn T)}

/-- Once nothing is put into the series any more, it makes no more turns than there is work left, and the run
that cannot go on has come to the end of the series. -/
theorem quiet_of_run (hrun : run first last inParallel callback turns = some s)
    (hquiet : ∀ turn ∈ more, turn.quiet = true) (hmore : Replay.replay step s more = some t) :
    more.length ≤ s.work ∧ ((∀ turn : Turn T, turn.quiet = true → step t turn = none) → t.phase = .ended) := by
  have hs := (kept_of_run hrun).1
  refine ⟨?_, fun hstuck => ?_⟩
  · have hlength := decreases_work.length_add_le hs hquiet hmore
    omega
  · exact decreases_work.final_of_stuck (fun s hs hended => exists_quiet hs.sound hended) hs hquiet hmore hstuck

theorem quiet_of_run_last : ∃ s t, run 1 (some 9) false true [.start, .pushBack 2] = some s
    ∧ Replay.replay step s [.finish, .readCanceled, .popTask, .finish, .readCanceled, .popTask, .finish, .readCanceled,
        .popTask] = some t
    ∧ 9 ≤ s.work := by
  obtain ⟨s, hrun⟩ : ∃ s, run 1 (some 9) false true [.start, .pushBack 2] = some s := ⟨_, rfl⟩
  obtain ⟨t, hmore⟩ : ∃ t, Replay.replay step s [.finish, .readCanceled, .popTask, .finish, .readCanceled, .popTask,
      .finish, .readCanceled, .popTask] = some t := by
    obtain rfl := Option.some.inj hrun
    exact ⟨_, rfl⟩
  exact ⟨s, t, hrun, hmore, (quiet_of_run hrun (by decide) hmore).1⟩

end WorkflowModel.Factory.SeriesRun
