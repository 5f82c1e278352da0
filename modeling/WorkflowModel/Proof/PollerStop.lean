import WorkflowModel.Kernel.PollerThread

/-!
# Stopping the thread

`poller_stop` writes a NULL pointer to the pipe and joins the thread. The thread that reads it leaves the
loop over the events of its batch, but not the loop around it: it arms the timer again and waits for
events, and it never returns.
-/

namespace WorkflowModel.Kernel

open Poller

theorem handleEvent_ne_returned (io : Io) (event : EventData) (batch : Batch) (p : Poller) :
    (p.handleEvent io event batch).1 ≠ .returned := by
  cases event with
  | timer => simp [handleEvent]
  | pipe => simp [handleEvent]
  | node n =>
      simp only [handleEvent]
      split
      · split <;> simp
      · split_ifs <;> simp
      · simp

theorem threadStep_ne_returned {io : Io} {pc pc' : Pc} {p p' : Poller}
    (h : threadStep io pc p = some (pc', p')) : pc' ≠ .returned := by
  cases pc with
  | setTimer => cases h; simp
  | wait =>
      obtain ⟨events, -, heq⟩ := Option.map_eq_some_iff.1 h
      cases heq
      simp
  | event batch =>
      simp only [threadStep] at h
      split at h
      · cases h
        simp
      next event rest _ =>
        have hne := handleEvent_ne_returned io event { batch with rest := rest } p
        rw [Option.some.inj h] at hne
        exact hne
  | removing n state error batch =>
      simp only [threadStep] at h
      split_ifs at h <;> (cases h; simp)
  | finishing n state error batch => cases h; simp
  | checkPipe batch =>
      simp only [threadStep] at h
      split_ifs at h <;> (cases h; simp)
  | pipeResults pointers stop batch =>
      simp only [threadStep] at h
      split at h
      · cases h; simp
      · cases h; simp
      · split_ifs at h <;> (cases h; simp)
  | timeout batch => cases h; simp
  | timeoutResults expired batch =>
      simp only [threadStep] at h
      split at h <;> (cases h; simp)
  | returned => cases h

namespace Machine

theorem step_ne_returned {m m' : Machine} {input : Input} (h : m.step input = some m')
    (hm : m.pc ≠ .returned) : m'.pc ≠ .returned := by
  cases input with
  | call call =>
      obtain ⟨p, -, rfl⟩ := Option.map_eq_some_iff.1 h
      exact hm
  | stopMarker =>
      cases h
      exact hm
  | thread io =>
      obtain ⟨⟨pc, p⟩, hstep, rfl⟩ := Option.map_eq_some_iff.1 h
      exact threadStep_ne_returned hstep

theorem run_ne_returned {m m' : Machine} {inputs : List Input} (h : m.run inputs = some m')
    (hm : m.pc ≠ .returned) : m'.pc ≠ .returned := by
  induction inputs generalizing m with
  | nil =>
      cases h
      exact hm
  | cons input rest ih =>
      obtain ⟨next, hstep, hrest⟩ := Option.bind_eq_some_iff.1 h
      exact ih hrest (step_ne_returned hstep hm)

/-- A thread that has read the stop marker makes no further round, and it can still return. -/
def ObeysStop (m : Machine) : Prop :=
  ∀ before pointers after, m.poller.log = before ++ .readPipe pointers :: after → none ∈ pointers →
    (∀ action ∈ after, action ≠ .setTimer ∧ ∀ events, action ≠ .wait events)
      ∧ ∃ inputs m', m.run inputs = some m' ∧ m'.pc = .returned

/-- In every run, the thread obeys the stop marker only as long as it has not read it. -/
theorem obeysStop_iff_not_read {fds : Descriptors} {maxOpenFiles : Nat} {inputs : List Input}
    {m : Machine} (hrun : (startedMachine fds maxOpenFiles).run inputs = some m) :
    m.ObeysStop ↔ ∀ pointers, .readPipe pointers ∈ m.poller.log → none ∉ pointers := by
  have hm : m.pc ≠ .returned := run_ne_returned hrun (by simp [startedMachine])
  constructor
  · intro hobeys pointers hread hnull
    obtain ⟨before, after, hlog⟩ := List.append_of_mem hread
    obtain ⟨-, inputs', m', hrun', hreturned⟩ := hobeys before pointers after hlog hnull
    exact run_ne_returned hrun' hm hreturned
  · intro hnone before pointers after hlog hnull
    refine absurd hnull (hnone pointers ?_)
    rw [hlog]
    simp

def someDescriptors : Descriptors :=
  { pfd := 3, timerfd := 4, pipeRd := 5, pipeWr := 6, distinct := by decide }

/-- The kernel reports the given descriptors and nothing else of note. -/
def readyIo (ready : List Nat) : Io := { ready := ready, now := ⟨0, 0⟩, reads := [], soError := 0 }

def timerRun : List Input :=
  [.thread (readyIo []), .thread (readyIo [4]), .thread (readyIo []), .thread (readyIo []),
    .thread (readyIo []), .thread (readyIo []), .thread (readyIo []), .thread (readyIo [])]

theorem obeysStop_timerRun :
    ∃ m, (startedMachine someDescriptors 0).run timerRun = some m ∧ m.ObeysStop := by
  have hlog : ((startedMachine someDescriptors 0).run timerRun).map (fun m => m.poller.log)
      = some [.setTimer, .wait [.timer], .setTimer] := by decide
  obtain ⟨m, hm, hmlog⟩ := Option.map_eq_some_iff.1 hlog
  refine ⟨m, hm, (obeysStop_iff_not_read hm).2 ?_⟩
  rw [hmlog]
  simp

def stopRun : List Input :=
  [.thread (readyIo []), .stopMarker, .thread (readyIo [5]), .thread (readyIo []),
    .thread (readyIo []), .thread (readyIo []), .thread (readyIo []), .thread (readyIo [])]

theorem not_obeysStop_stopRun :
    ∃ m, (startedMachine someDescriptors 0).run stopRun = some m ∧ ¬ m.ObeysStop := by
  have hlog : ((startedMachine someDescriptors 0).run stopRun).map (fun m => m.poller.log)
      = some ([.setTimer, .wait [.pipe]] ++ .readPipe [none] :: [.setTimer]) := by decide
  obtain ⟨m, hm, hmlog⟩ := Option.map_eq_some_iff.1 hlog
  refine ⟨m, hm, ?_⟩
  intro hobeys
  obtain ⟨hround, -⟩ := hobeys _ _ _ hmlog (by simp)
  exact (hround .setTimer (by simp)).1 rfl

end Machine

end WorkflowModel.Kernel
