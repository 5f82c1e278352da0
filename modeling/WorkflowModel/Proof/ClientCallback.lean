import WorkflowModel.Client.Task

/-!
# The end of a client task

While the client task or a task it inserted is running, the user callback has not been called and the
task is alive. When the series goes on to another task, the client task has either been through its
callback and deleted itself, or it has been dropped: `done` does neither for a task without a target.
-/

namespace WorkflowModel.Client

open WorkflowModel

def Item.isOwn : Item → Bool
  | .other _ => false
  | _ => true

def World.busy (w : World) : Bool := w.current.any Item.isOwn

def Event.isCallback : Event → Bool
  | .callback _ _ => true
  | _ => false

def callbacks (log : List Event) : Nat := log.countP Event.isCallback

def deletions (log : List Event) : Nat := log.count .deleted

def Attempt.acquired : Attempt → Bool
  | .notAcquired _ => false
  | _ => true

/-- The task that is dispatched next, if it is the client task, comes to the scheduler and gets a
target there. -/
def GetsTarget (w : World) (answers : Answers) : Prop :=
  w.current = some .origin →
    w.task.initState ≠ 0 ∧ w.task.routeResult.requestObject.isSome ∧ answers.attempt.acquired

/-- The fields that only the constructor, `done` and the callbacks write. -/
structure SameFrame (p q : ComplexHttpTask) : Prop where
  target : q.target = p.target
  routerTask : q.routerTask = p.routerTask
  hasCallback : q.hasCallback = p.hasCallback

theorem SameFrame.trans {p q r : ComplexHttpTask} (h : SameFrame p q) (h' : SameFrame q r) :
    SameFrame p r :=
  ⟨h'.target.trans h.target, h'.routerTask.trans h.routerTask, h'.hasCallback.trans h.hasCallback⟩

/-- Initialising with a URI leaves the counters and the redirect flag alone too. -/
structure SameInit (p q : ComplexHttpTask) : Prop extends SameFrame p q where
  redirect : q.redirect = p.redirect
  retryTimes : q.retryTimes = p.retryTimes
  retryMax : q.retryMax = p.retryMax
  redirectCount : q.redirectCount = p.redirectCount
  redirectMax : q.redirectMax = p.redirectMax
  method : q.method = p.method

theorem SameInit.trans {p q r : ComplexHttpTask} (h : SameInit p q) (h' : SameInit q r) :
    SameInit p r :=
  ⟨h.toSameFrame.trans h'.toSameFrame, h'.redirect.trans h.redirect,
    h'.retryTimes.trans h.retryTimes, h'.retryMax.trans h.retryMax,
    h'.redirectCount.trans h.redirectCount, h'.redirectMax.trans h.redirectMax,
    h'.method.trans h.method⟩

section Frame

variable (lib : Library) (choice : Choice) (task : ComplexHttpTask)

theorem setPort_frame : SameInit task (setPort lib task).2 := by
  unfold setPort
  split
  · exact ⟨⟨rfl, rfl, rfl⟩, rfl, rfl, rfl, rfl, rfl, rfl⟩
  · split
    · split <;> exact ⟨⟨rfl, rfl, rfl⟩, rfl, rfl, rfl, rfl, rfl, rfl⟩
    · exact ⟨⟨rfl, rfl, rfl⟩, rfl, rfl, rfl, rfl, rfl, rfl⟩

theorem chooseUpstream_frame : SameInit task (chooseUpstream choice task) := by
  unfold chooseUpstream
  split
  · exact ⟨⟨rfl, rfl, rfl⟩, rfl, rfl, rfl, rfl, rfl, rfl⟩
  · split <;> exact ⟨⟨rfl, rfl, rfl⟩, rfl, rfl, rfl, rfl, rfl, rfl⟩

theorem initWithUri_frame : SameInit task (initWithUri lib choice task) := by
  have hkeep : SameInit task { keepOriginalUri task with routeResult := {} } := by
    unfold keepOriginalUri
    split_ifs <;> exact ⟨⟨rfl, rfl, rfl⟩, rfl, rfl, rfl, rfl, rfl, rfl⟩
  refine hkeep.trans ?_
  unfold initWithUri
  generalize ({ keepOriginalUri task with routeResult := {} } : ComplexHttpTask) = kept
  have hport := setPort_frame lib kept
  dsimp only
  split_ifs
  · exact hport.trans (chooseUpstream_frame choice _)
  · exact hport.trans ⟨⟨rfl, rfl, rfl⟩, rfl, rfl, rfl, rfl, rfl, rfl⟩
  · exact ⟨⟨rfl, rfl, rfl⟩, rfl, rfl, rfl, rfl, rfl, rfl⟩
  · exact ⟨⟨rfl, rfl, rfl⟩, rfl, rfl, rfl, rfl, rfl, rfl⟩

theorem init_frame (uri : ParsedURI) : SameInit task (init lib choice uri task) := by
  have h := initWithUri_frame lib choice { task with isSockaddr := false, initState := 0, uri := uri }
  exact ⟨⟨h.target, h.routerTask, h.hasCallback⟩, h.redirect, h.retryTimes, h.retryMax,
    h.redirectCount, h.redirectMax, h.method⟩

theorem setRedirect_frame (uri : ParsedURI) : SameFrame task (setRedirect lib choice uri task) := by
  have h := init_frame lib choice { task with redirect := true } uri
  exact ⟨h.target, h.routerTask, h.hasCallback⟩

theorem setRetry_frame (uri : ParsedURI) : SameFrame task (setRetry lib choice uri task) := by
  have h := init_frame lib choice { task with redirect := true } uri
  exact ⟨h.target, h.routerTask, h.hasCallback⟩

theorem redirectUrl_frame : SameFrame task (redirectUrl lib task).2 := by
  unfold redirectUrl
  split
  · dsimp only
    split <;> exact ⟨rfl, rfl, rfl⟩
  · exact ⟨rfl, rfl, rfl⟩

theorem needRedirect_frame : SameFrame task (needRedirect lib task).2 := by
  have hurl := redirectUrl_frame lib task
  unfold needRedirect
  split
  · dsimp only
    split_ifs
    · exact hurl.trans ⟨rfl, rfl, rfl⟩
    · exact hurl
    · exact hurl
    · exact ⟨rfl, rfl, rfl⟩
  · exact ⟨rfl, rfl, rfl⟩

theorem finishOnce_frame : SameFrame task (finishOnce lib choice task).2 := by
  have hneed := needRedirect_frame lib task
  unfold finishOnce
  dsimp only
  split_ifs
  · exact hneed.trans (setRedirect_frame lib choice _ _)
  · exact hneed.trans ⟨rfl, rfl, rfl⟩
  · exact hneed
  · exact ⟨rfl, rfl, rfl⟩

theorem finishOnce_fst : (finishOnce lib choice task).1 = true := by
  unfold finishOnce
  dsimp only
  split_ifs <;> rfl

theorem checkOnce_frame :
    SameFrame task (checkOnce task) ∧ (checkOnce task).redirect = task.redirect ∧
      (checkOnce task).routeResult = task.routeResult ∧
      ((checkOnce task).initState = 0 ↔ task.initState = 0) := by
  unfold checkOnce
  by_cases hone : task.initState = 1
  · rw [if_pos hone]
    exact ⟨⟨rfl, rfl, rfl⟩, rfl, rfl, by simp [hone, checkRequest]⟩
  · rw [if_neg hone]
    exact ⟨⟨rfl, rfl, rfl⟩, rfl, rfl, Iff.rfl⟩

theorem commDispatch_frame (attempt : Attempt) :
    (commDispatch attempt task).routerTask = task.routerTask ∧
    (commDispatch attempt task).hasCallback = task.hasCallback ∧
    (commDispatch attempt task).target.isSome = attempt.acquired := by
  cases attempt <;> exact ⟨rfl, rfl, rfl⟩

end Frame

theorem callback_task (w : World) : (callback w).task = w.task := by
  unfold callback World.record
  split_ifs <;> rfl

theorem callback_queue (w : World) : (callback w).queue = w.queue := by
  unfold callback World.record
  split_ifs <;> rfl

theorem pop_log (w : World) : w.pop.log = w.log := by
  unfold World.pop
  cases w.queue <;> rfl

theorem pop_pushFront (item : Item) (w : World) :
    (w.pushFront item).pop = { w with current := some item } := rfl

theorem not_busy_pop {w : World} (hqueue : ∀ item ∈ w.queue, item.isOwn = false) :
    w.pop.busy = false := by
  unfold World.pop World.busy
  cases hq : w.queue with
  | nil => rfl
  | cons item rest => exact hqueue item (by simp [hq])

structure Running (w : World) : Prop where
  target : w.task.target = none
  routerTask : w.task.routerTask = false
  redirect : w.task.redirect = false
  hasCallback : w.task.hasCallback = true
  queue : ∀ item ∈ w.queue, item.isOwn = false
  log : callbacks w.log = 0 ∧ deletions w.log = 0

def EndedOnce (w : World) : Prop :=
  w.busy = false ∧ callbacks w.log = 1 ∧ deletions w.log = 1

def Dropped (w : World) : Prop :=
  w.busy = false ∧ callbacks w.log = 0 ∧ deletions w.log = 0

theorem ended_of_callback {w : World} (hcallback : w.task.hasCallback = true)
    (hqueue : ∀ item ∈ w.queue, item.isOwn = false)
    (hlog : callbacks w.log = 0 ∧ deletions w.log = 0) :
    EndedOnce ((callback w).record .deleted).pop := by
  have hrecord : ((callback w).record .deleted).log
      = w.log ++ [.callback w.task.state w.task.error, .deleted] := by
    unfold callback World.record
    rw [if_pos hcallback]
    simp
  refine ⟨not_busy_pop ?_, ?_, ?_⟩
  · change ∀ item ∈ (callback w).queue, _
    rw [callback_queue]
    exact hqueue
  · rw [pop_log, hrecord, callbacks, List.countP_append, ← callbacks, hlog.1]
    rfl
  · rw [pop_log, hrecord, deletions, List.count_append, ← deletions, hlog.2]
    rfl

theorem switchCallback_ends (lib : Library) {w : World} (hrouter : w.task.routerTask = false)
    (hcallback : w.task.hasCallback = true) (hqueue : ∀ item ∈ w.queue, item.isOwn = false)
    (hlog : callbacks w.log = 0 ∧ deletions w.log = 0) :
    ((switchCallback lib w).pop.busy = true ∧ Running (switchCallback lib w).pop) ∨
      EndedOnce (switchCallback lib w).pop := by
  unfold switchCallback
  cases hredirect : w.task.redirect with
  | true =>
      simp only [hredirect, Bool.not_true, Bool.false_eq_true, ↓reduceIte, pop_pushFront]
      exact Or.inl ⟨rfl, rfl, hrouter, rfl, hcallback, hqueue, hlog⟩
  | false =>
      simp only [Bool.not_false, ↓reduceIte, callback_task, hredirect, Bool.false_eq_true]
      exact Or.inr (ended_of_callback hcallback hqueue hlog)

/-- `finish_once` and the notifications change neither the queue nor the callbacks. -/
theorem finishAttempt_frame (lib : Library) (answers : Answers) (w : World) :
    (finishAttempt lib answers w).1 = false ∧
    SameFrame w.task (finishAttempt lib answers w).2.task ∧
    (finishAttempt lib answers w).2.queue = w.queue ∧
    callbacks (finishAttempt lib answers w).2.log = callbacks w.log ∧
    deletions (finishAttempt lib answers w).2.log = deletions w.log := by
  have hfinish := finishOnce_frame lib answers.redirectChoice w.task
  have hlog : ∀ event : Event, event.isCallback = false → event ≠ .deleted →
      callbacks (w.log ++ [event]) = callbacks w.log ∧
      deletions (w.log ++ [event]) = deletions w.log := by
    intro event hcallback hdeleted
    constructor
    · simp [callbacks, hcallback]
    · simp [deletions, hdeleted]
  have hnotify := fun route upstream => hlog (.notifyUnavailable route upstream) rfl (by simp)
  unfold finishAttempt
  dsimp only
  rw [finishOnce_fst]
  split_ifs
  · exact ⟨rfl, hfinish.trans ⟨rfl, rfl, rfl⟩, rfl, hlog _ rfl (by simp)⟩
  · exact ⟨rfl, hfinish.trans ⟨rfl, rfl, rfl⟩, rfl, hnotify _ _⟩
  · have hretry := setRetry_frame lib answers.retryChoice
      (finishOnce lib answers.redirectChoice w.task).2
      (finishOnce lib answers.redirectChoice w.task).2.originalUri
    exact ⟨rfl, hfinish.trans (hretry.trans ⟨rfl, rfl, rfl⟩), rfl, hnotify _ _⟩
  · exact ⟨rfl, hfinish, rfl, hnotify _ _⟩
  · exact ⟨rfl, hfinish, rfl, rfl, rfl⟩

/-- The world in which `done` decides how to go on. -/
def attemptEnd (lib : Library) (answers : Answers) (w : World) : World :=
  if w.task.initState ≠ 0 then (finishAttempt lib answers w).2 else w

theorem done_eq (lib : Library) (answers : Answers) {w : World} (hrouter : w.task.routerTask = false) :
    done lib answers w =
      if (attemptEnd lib answers w).task.target = none then (attemptEnd lib answers w).pop
      else (switchCallback lib (attemptEnd lib answers w)).pop := by
  have hfirst := (finishAttempt_frame lib answers w).1
  unfold done attemptEnd
  by_cases hinit : w.task.initState ≠ 0
  · simp only [hrouter, hinit, hfirst, Bool.false_eq_true, ↓reduceIte, ne_eq, not_false_eq_true]
  · simp only [hrouter, hinit, Bool.false_eq_true, ↓reduceIte]

theorem attemptEnd_frame (lib : Library) (answers : Answers) (w : World) :
    SameFrame w.task (attemptEnd lib answers w).task ∧
    (attemptEnd lib answers w).queue = w.queue ∧
    callbacks (attemptEnd lib answers w).log = callbacks w.log ∧
    deletions (attemptEnd lib answers w).log = deletions w.log := by
  unfold attemptEnd
  split_ifs
  · exact (finishAttempt_frame lib answers w).2
  · exact ⟨⟨rfl, rfl, rfl⟩, rfl, rfl, rfl⟩

/-- `done` for a task that is not routing: it ends, is queued again, or is dropped for want of a
target. -/
theorem done_ends (lib : Library) (answers : Answers) {w : World}
    (hrouter : w.task.routerTask = false) (hcallback : w.task.hasCallback = true)
    (hqueue : ∀ item ∈ w.queue, item.isOwn = false)
    (hlog : callbacks w.log = 0 ∧ deletions w.log = 0) :
    (w.task.target.isSome → ((done lib answers w).busy = true ∧ Running (done lib answers w)) ∨
      EndedOnce (done lib answers w)) ∧
    (w.task.target = none → Dropped (done lib answers w)) := by
  obtain ⟨hframe, hsame, hcallbacks, hdeletions⟩ := attemptEnd_frame lib answers w
  rw [done_eq lib answers hrouter]
  generalize attemptEnd lib answers w = next at *
  have hcount : callbacks next.log = 0 ∧ deletions next.log = 0 :=
    ⟨hcallbacks.trans hlog.1, hdeletions.trans hlog.2⟩
  have hnextQueue : ∀ item ∈ next.queue, item.isOwn = false := by
    rw [hsame]
    exact hqueue
  rw [hframe.target]
  constructor
  · intro hsome
    rw [if_neg (Option.isSome_iff_ne_none.mp hsome)]
    exact switchCallback_ends lib (hframe.routerTask.trans hrouter)
      (hframe.hasCallback.trans hcallback) hnextQueue hcount
  · intro hnone
    rw [if_pos hnone]
    refine ⟨not_busy_pop hnextQueue, ?_, ?_⟩
    · rw [pop_log]
      exact hcount.1
    · rw [pop_log]
      exact hcount.2

theorem routerCallback_ends (router : RouterTask) {w : World} (hw : Running w) :
    ((routerCallback router w).pop.busy = true ∧ Running (routerCallback router w).pop) ∨
      EndedOnce (routerCallback router w).pop := by
  unfold routerCallback
  generalize htask : (if router.state = .success then
      { w.task with routeResult := router.routeResult }
    else { w.task with state := router.state, error := router.error } : ComplexHttpTask) = task
  have hframe : SameFrame w.task task ∧ task.redirect = false := by
    rw [← htask]
    split_ifs <;> exact ⟨⟨rfl, rfl, rfl⟩, hw.redirect⟩
  obtain ⟨hframe, hredirect⟩ := hframe
  have hcallback := hframe.hasCallback.trans hw.hasCallback
  dsimp only
  by_cases hobject : task.routeResult.requestObject.isSome
  · rw [if_pos hobject]
    exact Or.inl ⟨rfl, hframe.target.trans hw.target, hframe.routerTask.trans hw.routerTask,
      hredirect, hcallback, hw.queue, hw.log⟩
  · rw [if_neg hobject, if_neg (by rw [callback_task]; simp [World.record, hredirect])]
    refine Or.inr (ended_of_callback hcallback hw.queue ⟨?_, ?_⟩)
    · simpa [callbacks, World.record, Event.isCallback] using hw.log.1
    · simpa [deletions, World.record] using hw.log.2

theorem dispatch_ends (lib : Library) (answers : Answers) {w : World} (hw : Running w)
    (hcurrent : w.current = some .origin) :
    ((dispatch lib answers w).busy = true ∧ Running (dispatch lib answers w)) ∨
    (GetsTarget w answers ∧ EndedOnce (dispatch lib answers w)) ∨
    (¬ GetsTarget w answers ∧ Dropped (dispatch lib answers w)) := by
  obtain ⟨hframe, hredirect, hroute, hinit⟩ := checkOnce_frame w.task
  rw [hw.redirect] at hredirect
  have htarget := hframe.target.trans hw.target
  have hrouter := hframe.routerTask.trans hw.routerTask
  have hcallback := hframe.hasCallback.trans hw.hasCallback
  -- without a scheduler object the task stays without a target
  have hdropped : ∀ next : ComplexHttpTask, SameFrame (checkOnce w.task) next →
      Dropped (done lib answers { w with task := next }) := fun next hnext =>
    (done_ends lib answers (w := { w with task := next }) (hnext.routerTask.trans hrouter)
      (hnext.hasCallback.trans hcallback) hw.queue hw.log).2 (hnext.target.trans htarget)
  unfold dispatch
  dsimp only
  generalize checkOnce w.task = task at hframe hredirect hroute hinit htarget hrouter hcallback hdropped ⊢
  by_cases hzero : task.initState = 0
  · rw [if_neg (by simpa using hzero)]
    refine Or.inr (Or.inr ⟨fun hgets => (hgets hcurrent).1 (hinit.mp hzero), ?_⟩)
    exact hdropped task ⟨rfl, rfl, rfl⟩
  · rw [if_pos hzero]
    by_cases hobject : task.routeResult.requestObject.isSome
    · rw [if_pos hobject]
      obtain ⟨hdRouter, hdCallback, hdTarget⟩ := commDispatch_frame task answers.attempt
      have hcounts : callbacks (w.log ++ [Event.attempt]) = 0 ∧
          deletions (w.log ++ [Event.attempt]) = 0 := by
        simpa [callbacks, deletions, Event.isCallback] using hw.log
      have hends := done_ends lib answers
        (w := World.record .attempt { w with task := commDispatch answers.attempt task })
        (hdRouter.trans hrouter) (hdCallback.trans hcallback) hw.queue hcounts
      cases hacquired : answers.attempt.acquired with
      | true =>
          rcases hends.1 (hdTarget.trans hacquired) with hbusy | hended
          · exact Or.inl hbusy
          · refine Or.inr (Or.inl ⟨fun _ => ⟨fun h => hzero (hinit.mpr h), ?_, hacquired⟩, hended⟩)
            rw [← hroute]
            exact hobject
      | false =>
          refine Or.inr (Or.inr ⟨fun hgets => ?_, hends.2 ?_⟩)
          · exact absurd ((hgets hcurrent).2.2) (by simp [hacquired])
          · have hnone : (commDispatch answers.attempt task).target.isSome ≠ true := by
              rw [hdTarget, hacquired]
              decide
            exact Option.not_isSome_iff_eq_none.mp hnone
    · have hgetsNot : ¬ GetsTarget w answers := by
        intro hgets
        rw [hroute] at hobject
        exact hobject (hgets hcurrent).2.1
      rw [if_neg hobject]
      split_ifs
      · refine Or.inl ?_
        have hrouting : done lib answers (World.pushFront (.router {})
            { w with task := { task with routerTask := true, isRetry := false } })
            = { w with
                task := { task with routerTask := false, isRetry := false }
                current := some (.router {}) } := rfl
        rw [hrouting]
        exact ⟨rfl, htarget, rfl, hredirect, hcallback, hw.queue, hw.log⟩
      · exact Or.inr (Or.inr ⟨hgetsNot, hdropped _ ⟨rfl, rfl, rfl⟩⟩)
      · exact Or.inr (Or.inr ⟨hgetsNot, hdropped _ ⟨rfl, rfl, rfl⟩⟩)

theorem step_ends (lib : Library) (answers : Answers) {w : World} (hw : Running w)
    (hbusy : w.busy = true) :
    ((step lib answers w).busy = true ∧ Running (step lib answers w)) ∨
    (GetsTarget w answers ∧ EndedOnce (step lib answers w)) ∨
    (¬ GetsTarget w answers ∧ Dropped (step lib answers w)) := by
  cases hcurrent : w.current with
  | none => simp [World.busy, hcurrent] at hbusy
  | some item =>
      have hgets : item ≠ .origin → GetsTarget w answers := by
        intro hne horigin
        rw [hcurrent, Option.some.injEq] at horigin
        exact absurd horigin hne
      cases item with
      | other id => simp [World.busy, hcurrent, Item.isOwn] at hbusy
      | origin =>
          simp only [step, hcurrent]
          exact dispatch_ends lib answers hw hcurrent
      | router router =>
          simp only [step, hcurrent, routerDispatch]
          split_ifs
          · exact Or.inl ⟨rfl, hw.target, hw.routerTask, hw.redirect, hw.hasCallback, hw.queue, hw.log⟩
          · rcases routerCallback_ends _ hw with hrunning | hended
            · exact Or.inl hrunning
            · exact Or.inr (Or.inl ⟨hgets (by simp), hended⟩)
      | dns router =>
          simp only [step, hcurrent, dnsDone]
          rcases routerCallback_ends _ hw with hrunning | hended
          · exact Or.inl hrunning
          · exact Or.inr (Or.inl ⟨hgets (by simp), hended⟩)

theorem step_of_not_busy (lib : Library) (answers : Answers) {w : World} (h : w.busy = false) :
    step lib answers w = w := by
  cases hcurrent : w.current with
  | none => simp [step, hcurrent]
  | some item =>
      cases item with
      | other id => simp [step, hcurrent]
      | origin => simp [World.busy, hcurrent, Item.isOwn] at h
      | router router => simp [World.busy, hcurrent, Item.isOwn] at h
      | dns router => simp [World.busy, hcurrent, Item.isOwn] at h

section Runs

variable (lib : Library) (choice : Choice) (url : Bytes) (redirectMax retryMax : Int)
  (rest : List Nat) (answers : Nat → Answers)

theorem running_start :
    Running (start (createHttpTask lib choice url redirectMax retryMax true) rest) := by
  have hframe := init_frame lib choice (newTask lib redirectMax retryMax true) (lib.parse url {})
  refine ⟨hframe.target, hframe.routerTask, hframe.redirect, hframe.hasCallback, ?_, rfl, rfl⟩
  intro item hitem
  obtain ⟨id, -, rfl⟩ := List.mem_map.mp hitem
  rfl

/-- While the request is running, nothing has been called or deleted. -/
theorem running_run (n : Nat)
    (hbusy : (run lib answers (start (createHttpTask lib choice url redirectMax retryMax true) rest)
      n).busy = true) :
    Running (run lib answers (start (createHttpTask lib choice url redirectMax retryMax true) rest)
      n) := by
  induction n with
  | zero => exact running_start lib choice url redirectMax retryMax rest
  | succ n ih =>
      rw [run] at hbusy ⊢
      generalize run lib answers (start (createHttpTask lib choice url redirectMax retryMax true) rest)
        n = w at ih hbusy ⊢
      by_cases hbefore : w.busy = true
      · rcases step_ends lib (answers n) (ih hbefore) hbefore with hrunning | ⟨-, hended⟩ |
          ⟨-, hdropped⟩
        · exact hrunning.2
        · exact absurd (hbusy.symm.trans hended.1) (by decide)
        · exact absurd (hbusy.symm.trans hdropped.1) (by decide)
      · -- the series has gone on, so the step does nothing
        rw [Bool.not_eq_true] at hbefore
        rw [step_of_not_busy lib (answers n) hbefore, hbefore] at hbusy
        exact absurd hbusy (by decide)

/-- When the series goes on, the callback has been called once and the task deleted once, if and only
if the last task to be dispatched was not the client task or the client task got a target. -/
theorem endedOnce_iff_getsTarget (n : Nat)
    (hbusy : (run lib answers (start (createHttpTask lib choice url redirectMax retryMax true) rest)
      n).busy = true)
    (hleft : (run lib answers (start (createHttpTask lib choice url redirectMax retryMax true) rest)
      (n + 1)).busy = false) :
    let before := run lib answers
      (start (createHttpTask lib choice url redirectMax retryMax true) rest) n
    let after := run lib answers
      (start (createHttpTask lib choice url redirectMax retryMax true) rest) (n + 1)
    (callbacks after.log = 1 ∧ deletions after.log = 1) ↔ GetsTarget before (answers n) := by
  have hrunning := running_run lib choice url redirectMax retryMax rest answers n hbusy
  rw [run] at hleft ⊢
  generalize run lib answers (start (createHttpTask lib choice url redirectMax retryMax true) rest)
    n = w at hbusy hleft hrunning ⊢
  rcases step_ends lib (answers n) hrunning hbusy with hstill | ⟨hgets, hended⟩ | ⟨hgets, hdropped⟩
  · exact absurd (hleft.symm.trans hstill.1) (by decide)
  · exact ⟨fun _ => hgets, fun _ => hended.2⟩
  · refine ⟨fun hcounts => ?_, fun h => absurd h hgets⟩
    exact absurd (hdropped.2.1.symm.trans hcounts.1) (by decide)

end Runs

/-- A library that knows one URL. -/
def localLibrary : Library where
  parse url uri :=
    if url = bytesOf "http://127.0.0.1/" then
      { scheme := some (bytesOf "http"), host := some (bytesOf "127.0.0.1")
        path := some (bytesOf "/"), state := .success, error := uri.error }
    else
      { uri with state := .invalid }
  defaultPort scheme := if scheme = bytesOf "http" then some (bytesOf "80") else none
  memory := Http.zeroedParser

/-- Answers under which an attempt reaches a server that answers `resp`. -/
def servedBy (resp : Http.HttpParser) : Answers where
  redirectChoice := .notFound
  retryChoice := .notFound
  cached := some (.routed 1 1)
  literal := none
  dns := .failed .aborted 0
  attempt := .handled 1 .success 0 resp

/-- A response `200 OK` without headers. -/
def okResponse : Http.HttpParser :=
  { Http.freshParser true false Http.zeroedParser with
    headerState := .headerComplete
    version := some (bytesOf "HTTP/1.1")
    code := some (bytesOf "200")
    phrase := some (bytesOf "OK")
    complete := true }

theorem endedOnce_localhost :
    let task := createHttpTask localLibrary .notFound (bytesOf "http://127.0.0.1/") 0 0 true
    let after := run localLibrary (fun _ => servedBy okResponse) (start task []) 3
    callbacks after.log = 1 ∧ deletions after.log = 1 := by
  refine (endedOnce_iff_getsTarget localLibrary .notFound (bytesOf "http://127.0.0.1/") 0 0 []
    (fun _ => servedBy okResponse) 2 (by decide +kernel) (by decide +kernel)).mpr ?_
  intro _
  refine ⟨?_, ?_, ?_⟩ <;> decide +kernel

/-- The empty URL does not parse. The series goes on at once, and the task is neither called back nor
deleted. -/
theorem not_endedOnce_emptyUrl :
    let task := createHttpTask localLibrary .notFound [] 0 0 true
    let first := start task [7]
    let after := run localLibrary (fun _ => servedBy okResponse) first 1
    first.busy = true ∧ after.current = some (.other 7) ∧ after.task.redirect = false ∧
      callbacks after.log = 0 ∧ deletions after.log = 0 := by
  refine ⟨?_, ?_, ?_, ?_, ?_⟩ <;> decide +kernel

end WorkflowModel.Client
