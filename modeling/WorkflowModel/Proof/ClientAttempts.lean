import WorkflowModel.Proof.ClientCallback
import Mathlib.Tactic.Linarith

/-!
# How many attempts a client task makes

A redirect is followed while `redirect_count_` is below its limit and sets `retry_times_` to 0. A
failed attempt is repeated while `retry_times_` is below its limit and sets `redirect_count_` to 0.
When one of the two limits is 0 the other counter counts the attempts. When both are positive, a server
that redirects and fails in turn keeps the task going.
-/

namespace WorkflowModel.Client

open WorkflowModel

def attempts (log : List Event) : Nat := log.count .attempt

theorem attempts_append_of_ne {log : List Event} {event : Event} (h : event ≠ .attempt) :
    attempts (log ++ [event]) = attempts log := by
  simp [attempts, h]

/-- Looking for a redirect keeps the limits and the flag, and counts the redirect that it finds. -/
structure LooksForRedirect (task : ComplexHttpTask) (result : Bool × ComplexHttpTask) : Prop where
  retryMax : result.2.retryMax = task.retryMax
  redirectMax : result.2.redirectMax = task.redirectMax
  redirect : result.2.redirect = task.redirect
  state : result.2.state = task.state ∨ result.2.state = .taskError
  count : result.1 = true → task.redirectCount < task.redirectMax ∧
    result.2.redirectCount = task.redirectCount + 1

theorem looksForRedirect_self (task : ComplexHttpTask) : LooksForRedirect task (false, task) :=
  ⟨rfl, rfl, rfl, Or.inl rfl, by simp⟩

theorem redirectUrl_looks (lib : Library) (task : ComplexHttpTask) :
    LooksForRedirect task (redirectUrl lib task) := by
  unfold redirectUrl
  split
  · rename_i hlt
    dsimp only
    split
    · exact ⟨rfl, rfl, rfl, Or.inl rfl, fun _ => ⟨hlt, rfl⟩⟩
    · exact ⟨rfl, rfl, rfl, Or.inr rfl, by simp⟩
  · exact looksForRedirect_self task

theorem needRedirect_looks (lib : Library) (task : ComplexHttpTask) :
    LooksForRedirect task (needRedirect lib task) := by
  have h := redirectUrl_looks lib task
  unfold needRedirect
  split
  · dsimp only
    split_ifs with hstatus hget hother
    -- the method becomes GET
    · refine ⟨h.retryMax, h.redirectMax, h.redirect, h.state, fun _ => h.count ?_⟩
      simp only [Bool.and_eq_true] at hget
      exact hget.1.1
    · exact h
    · exact h
    · exact looksForRedirect_self task
  · exact looksForRedirect_self task

theorem setRedirect_counters (lib : Library) (choice : Choice) (uri : ParsedURI)
    (task : ComplexHttpTask) :
    let next := setRedirect lib choice uri task
    next.retryMax = task.retryMax ∧ next.redirectMax = task.redirectMax ∧ next.redirect = true ∧
      next.redirectCount = task.redirectCount ∧ next.retryTimes = 0 := by
  have h := init_frame lib choice { task with redirect := true } uri
  exact ⟨h.retryMax, h.redirectMax, h.redirect, h.redirectCount, rfl⟩

theorem setRetry_counters (lib : Library) (choice : Choice) (uri : ParsedURI)
    (task : ComplexHttpTask) :
    let next := setRetry lib choice uri task
    next.retryMax = task.retryMax ∧ next.redirectMax = task.redirectMax ∧
      next.redirectCount = task.redirectCount ∧ next.retryTimes = task.retryTimes + 1 := by
  have h := init_frame lib choice { task with redirect := true } uri
  exact ⟨h.retryMax, h.redirectMax, h.redirectCount, rfl⟩

/-- What `finish_once` does to the counters: it prepares a redirect, or it leaves the flag alone, and
then a task in error has its redirects counted from 0. -/
theorem finishOnce_counters (lib : Library) (choice : Choice) (task : ComplexHttpTask) :
    let next := (finishOnce lib choice task).2
    (next.retryMax = task.retryMax ∧ next.redirectMax = task.redirectMax) ∧
    ((task.redirectCount < task.redirectMax ∧ next.redirect = true ∧
        next.redirectCount = task.redirectCount + 1 ∧ next.retryTimes = 0) ∨
      (next.redirect = task.redirect ∧
        (next.state = .sysError → next.redirectCount = 0 ∧ next.retryTimes = task.retryTimes))) := by
  obtain ⟨hretry, hmax, hflag, hstate, hcount⟩ := needRedirect_looks lib task
  unfold finishOnce
  dsimp only
  split_ifs with hsuccess hredirect hbad
  · obtain ⟨hlt, hinc⟩ := hcount hredirect
    obtain ⟨hnRetry, hnMax, hset, hkept, htimes⟩ := setRedirect_counters lib choice
      (needRedirect lib task).2.uri (needRedirect lib task).2
    exact ⟨⟨hnRetry.trans hretry, hnMax.trans hmax⟩, Or.inl ⟨hlt, hset, hkept.trans hinc, htimes⟩⟩
  · refine ⟨⟨hretry, hmax⟩, Or.inr ⟨hflag, fun hsys => ?_⟩⟩
    rcases hstate with hsame | htask
    · exact absurd (hsame.trans hsuccess) hbad
    · exact absurd (htask.symm.trans hsys) (by decide)
  · rw [not_not] at hbad
    refine ⟨⟨hretry, hmax⟩, Or.inr ⟨hflag, fun hsys => ?_⟩⟩
    exact absurd (hbad.symm.trans hsys) (by decide)
  · exact ⟨⟨rfl, rfl⟩, Or.inr ⟨rfl, fun _ => ⟨rfl, rfl⟩⟩⟩

/-- What an attempt that is to be followed by another one does to the counters. -/
theorem finishAttempt_counters (lib : Library) (answers : Answers) (w : World)
    (hflag : w.task.redirect = false) :
    let next := (finishAttempt lib answers w).2
    (next.task.retryMax = w.task.retryMax ∧ next.task.redirectMax = w.task.redirectMax) ∧
    attempts next.log = attempts w.log ∧
    (next.task.redirect = true →
      (w.task.redirectCount < w.task.redirectMax ∧
        next.task.redirectCount = w.task.redirectCount + 1 ∧
        (next.task.retryTimes = 0 ∨ 0 < w.task.retryMax)) ∨
      (w.task.retryTimes < w.task.retryMax ∧ next.task.redirectCount = 0 ∧
        next.task.retryTimes = w.task.retryTimes + 1)) := by
  obtain ⟨⟨hretryMax, hredirectMax⟩, hcases⟩ :=
    finishOnce_counters lib answers.redirectChoice w.task
  unfold finishAttempt
  generalize finishOnce lib answers.redirectChoice w.task = result at hretryMax hredirectMax hcases ⊢
  obtain ⟨user, task⟩ := result
  dsimp only at hretryMax hredirectMax hcases ⊢
  have honce : task.redirect = true → (w.task.redirectCount < w.task.redirectMax ∧
      task.redirectCount = w.task.redirectCount + 1 ∧ task.retryTimes = 0) := by
    intro hset
    rcases hcases with ⟨hlt, -, hcount, htimes⟩ | ⟨hsame, -⟩
    · exact ⟨hlt, hcount, htimes⟩
    · rw [hflag] at hsame
      exact absurd (hset.symm.trans hsame) (by decide)
  by_cases hsuccess : task.state = .success
  · rw [if_pos hsuccess]
    refine ⟨⟨hretryMax, hredirectMax⟩, attempts_append_of_ne (by simp), fun hset => Or.inl ?_⟩
    obtain ⟨hlt, hcount, htimes⟩ := honce hset
    exact ⟨hlt, hcount, Or.inl htimes⟩
  · rw [if_neg hsuccess]
    by_cases hsys : task.state = .sysError
    · rw [if_pos hsys]
      by_cases hlimit : task.retryTimes < task.retryMax
      · rw [if_pos hlimit]
        -- the counters of the retried task, whichever way it is initialised
        have hnext : ∃ next : ComplexHttpTask, (if task.isSockaddr = true then
              { task with redirect := true, retryTimes := task.retryTimes + 1 }
            else setRetry lib answers.retryChoice task.originalUri task) = next ∧
            next.retryMax = task.retryMax ∧ next.redirectMax = task.redirectMax ∧
            next.redirectCount = task.redirectCount ∧ next.retryTimes = task.retryTimes + 1 := by
          refine ⟨_, rfl, ?_⟩
          cases task.isSockaddr with
          | true => exact ⟨rfl, rfl, rfl, rfl⟩
          | false => exact setRetry_counters lib answers.retryChoice task.originalUri task
        obtain ⟨next, hnext, hnRetryMax, hnRedirectMax, hnCount, hnTimes⟩ := hnext
        rw [hnext]
        refine ⟨⟨hnRetryMax.trans hretryMax, hnRedirectMax.trans hredirectMax⟩,
          attempts_append_of_ne (by simp), fun _ => ?_⟩
        rcases hcases with ⟨hlt, -, hcount, htimes⟩ | ⟨-, hreset⟩
        · refine Or.inl ⟨hlt, hnCount.trans hcount, Or.inr ?_⟩
          rw [htimes, hretryMax] at hlimit
          exact hlimit
        · obtain ⟨hcount, htimes⟩ := hreset hsys
          rw [htimes, hretryMax] at hlimit
          exact Or.inr ⟨hlimit, hnCount.trans hcount, by rw [hnTimes, htimes]⟩
      · rw [if_neg hlimit]
        refine ⟨⟨hretryMax, hredirectMax⟩, attempts_append_of_ne (by simp), fun hset => Or.inl ?_⟩
        obtain ⟨hlt, hcount, htimes⟩ := honce hset
        exact ⟨hlt, hcount, Or.inl htimes⟩
    · rw [if_neg hsys]
      refine ⟨⟨hretryMax, hredirectMax⟩, rfl, fun hset => Or.inl ?_⟩
      obtain ⟨hlt, hcount, htimes⟩ := honce hset
      exact ⟨hlt, hcount, Or.inl htimes⟩

/-- While the request is running the counters count the attempts. -/
structure Counted (redirectMax retryMax : Int) (w : World) : Prop where
  limits : w.task.redirectMax = redirectMax ∧ w.task.retryMax = retryMax
  redirects : 0 ≤ w.task.redirectCount ∧ w.task.redirectCount ≤ max redirectMax 0
  retries : 0 ≤ w.task.retryTimes ∧ w.task.retryTimes ≤ max retryMax 0
  attempts : (attempts w.log : Int) = w.task.redirectCount + w.task.retryTimes

section Counted

variable {redirectMax retryMax : Int} {w : World}

theorem attempts_callback (w : World) : attempts (callback w).log = attempts w.log := by
  unfold callback World.record
  split_ifs
  · exact attempts_append_of_ne (by simp)
  · rfl

theorem attempts_switchCallback (lib : Library) (w : World) :
    attempts (switchCallback lib w).pop.log = attempts w.log := by
  rw [pop_log]
  unfold switchCallback
  dsimp only
  by_cases hflag : w.task.redirect = true
  · simp only [hflag, Bool.not_true, Bool.false_eq_true, ↓reduceIte]
    rfl
  · rw [Bool.not_eq_true] at hflag
    simp only [hflag, Bool.not_false, ↓reduceIte, callback_task, Bool.false_eq_true]
    exact (attempts_append_of_ne (by simp)).trans (attempts_callback w)

theorem attempts_attemptEnd (lib : Library) (answers : Answers) (hflag : w.task.redirect = false) :
    attempts (attemptEnd lib answers w).log = attempts w.log := by
  unfold attemptEnd
  split_ifs
  · exact (finishAttempt_counters lib answers w hflag).2.1
  · rfl

theorem attempts_done (lib : Library) (answers : Answers) (hrouter : w.task.routerTask = false)
    (hflag : w.task.redirect = false) : attempts (done lib answers w).log = attempts w.log := by
  have hsame := attempts_attemptEnd lib answers hflag
  rw [done_eq lib answers hrouter]
  split_ifs
  · rw [pop_log, hsame]
  · rw [attempts_switchCallback, hsame]

theorem switchCallback_requeued (lib : Library) {next : World} (hredirect : next.task.redirect = true) :
    (switchCallback lib next).pop.task.redirectCount = next.task.redirectCount ∧
    (switchCallback lib next).pop.task.retryTimes = next.task.retryTimes ∧
    (switchCallback lib next).pop.task.redirectMax = next.task.redirectMax ∧
    (switchCallback lib next).pop.task.retryMax = next.task.retryMax := by
  unfold switchCallback
  simp only [hredirect, Bool.not_true, Bool.false_eq_true, ↓reduceIte]
  exact ⟨rfl, rfl, rfl, rfl⟩

theorem not_busy_switchCallback (lib : Library) {next : World} (hredirect : next.task.redirect = false)
    (hqueue : ∀ item ∈ next.queue, item.isOwn = false) : (switchCallback lib next).pop.busy = false := by
  unfold switchCallback
  simp only [hredirect, Bool.not_false, ↓reduceIte, callback_task, Bool.false_eq_true]
  apply not_busy_pop
  change ∀ item ∈ (callback next).queue, _
  rw [callback_queue]
  exact hqueue

theorem redirect_of_busy_done (lib : Library) (answers : Answers) (hrouter : w.task.routerTask = false)
    (hqueue : ∀ item ∈ w.queue, item.isOwn = false) (hbusy : (done lib answers w).busy = true) :
    (attemptEnd lib answers w).task.redirect = true ∧
      done lib answers w = (switchCallback lib (attemptEnd lib answers w)).pop := by
  have hnextQueue : ∀ item ∈ (attemptEnd lib answers w).queue, item.isOwn = false := by
    rw [(attemptEnd_frame lib answers w).2.1]
    exact hqueue
  rw [done_eq lib answers hrouter] at hbusy ⊢
  generalize attemptEnd lib answers w = next at *
  by_cases htarget : next.task.target = none
  · rw [if_pos htarget, not_busy_pop hnextQueue] at hbusy
    cases hbusy
  · rw [if_neg htarget] at hbusy ⊢
    refine ⟨?_, rfl⟩
    by_contra hredirect
    rw [not_busy_switchCallback lib (Bool.not_eq_true _ ▸ hredirect) hnextQueue] at hbusy
    cases hbusy

/-- The counters after `done`, for a world in which one attempt more has been made than they say. -/
theorem done_counters (lib : Library) (answers : Answers) (hone : redirectMax ≤ 0 ∨ retryMax ≤ 0)
    (hrouter : w.task.routerTask = false) (hflag : w.task.redirect = false)
    (hqueue : ∀ item ∈ w.queue, item.isOwn = false)
    (hlimits : w.task.redirectMax = redirectMax ∧ w.task.retryMax = retryMax)
    (hredirects : 0 ≤ w.task.redirectCount ∧ w.task.redirectCount ≤ max redirectMax 0)
    (hretries : 0 ≤ w.task.retryTimes ∧ w.task.retryTimes ≤ max retryMax 0)
    (hattempts : (attempts w.log : Int) = w.task.redirectCount + w.task.retryTimes + 1)
    (hbusy : (done lib answers w).busy = true) :
    Counted redirectMax retryMax (done lib answers w) := by
  obtain ⟨hredirect, hdone⟩ := redirect_of_busy_done lib answers hrouter hqueue hbusy
  have hfinished : (finishAttempt lib answers w).2 = attemptEnd lib answers w := by
    unfold attemptEnd at hredirect ⊢
    split_ifs at hredirect ⊢
    · rfl
    · rw [hflag] at hredirect
      cases hredirect
  have hlog := attempts_attemptEnd lib answers hflag
  obtain ⟨⟨hretryMax, hredirectMax⟩, -, hcases⟩ := finishAttempt_counters lib answers w hflag
  rw [hdone]
  rw [hfinished] at hretryMax hredirectMax hcases
  generalize attemptEnd lib answers w = next at *
  obtain ⟨hcount, htimes, hmax, hrmax⟩ := switchCallback_requeued lib hredirect
  have hmade := attempts_switchCallback lib next
  rw [hlimits.1, hlimits.2] at hcases
  constructor
  · exact ⟨hmax.trans (hredirectMax.trans hlimits.1), hrmax.trans (hretryMax.trans hlimits.2)⟩
  -- a counter whose limit is not positive stays 0, so the other one has counted every attempt
  · rw [hcount]
    obtain ⟨hlt, hinc, -⟩ | ⟨hlt, hzero, -⟩ := hcases hredirect <;> omega
  · rw [htimes]
    obtain ⟨hlt, -, hzero⟩ | ⟨hlt, -, hinc⟩ := hcases hredirect <;> omega
  · rw [hmade, hlog, hcount, htimes]
    obtain ⟨hlt, hinc, hzero⟩ | ⟨hlt, hzero, hinc⟩ := hcases hredirect <;> omega

theorem checkOnce_counters (task : ComplexHttpTask) :
    (checkOnce task).redirectMax = task.redirectMax ∧ (checkOnce task).retryMax = task.retryMax ∧
    (checkOnce task).redirectCount = task.redirectCount ∧
    (checkOnce task).retryTimes = task.retryTimes := by
  unfold checkOnce
  by_cases h : task.initState = 1
  · rw [if_pos h]
    exact ⟨rfl, rfl, rfl, rfl⟩
  · rw [if_neg h]
    exact ⟨rfl, rfl, rfl, rfl⟩

theorem commDispatch_counters (attempt : Attempt) (task : ComplexHttpTask) :
    (commDispatch attempt task).redirect = task.redirect ∧
    (commDispatch attempt task).redirectMax = task.redirectMax ∧
    (commDispatch attempt task).retryMax = task.retryMax ∧
    (commDispatch attempt task).redirectCount = task.redirectCount ∧
    (commDispatch attempt task).retryTimes = task.retryTimes := by
  cases attempt <;> exact ⟨rfl, rfl, rfl, rfl, rfl⟩

theorem dropped_counters (lib : Library) (answers : Answers) (hw : Running w) {next : ComplexHttpTask}
    (hframe : SameFrame w.task next) (hredirect : next.redirect = false) :
    (attempts (done lib answers { w with task := next }).log : Int) ≤ attempts w.log + 1 ∧
    ((done lib answers { w with task := next }).busy = true →
      Counted redirectMax retryMax (done lib answers { w with task := next })) := by
  have hrouter : next.routerTask = false := hframe.routerTask.trans hw.routerTask
  have hends := (done_ends lib answers (w := { w with task := next }) hrouter
    (hframe.hasCallback.trans hw.hasCallback) hw.queue hw.log).2 (hframe.target.trans hw.target)
  refine ⟨?_, fun hbusy => absurd (hbusy.symm.trans hends.1) (by decide)⟩
  rw [attempts_done lib answers (w := { w with task := next }) hrouter hredirect]
  exact Int.le_add_one le_rfl

/-- A task that comes to the scheduler makes one attempt. -/
theorem sent_counters (lib : Library) (answers : Answers) (hone : redirectMax ≤ 0 ∨ retryMax ≤ 0)
    (hw : Running w) {task : ComplexHttpTask} (hframe : SameFrame w.task task)
    (hredirect : task.redirect = false) (hc : Counted redirectMax retryMax { w with task := task }) :
    let sent := World.record .attempt { w with task := commDispatch answers.attempt task }
    (attempts (done lib answers sent).log : Int) ≤ attempts w.log + 1 ∧
    ((done lib answers sent).busy = true → Counted redirectMax retryMax (done lib answers sent)) := by
  obtain ⟨hdRedirect, hdMax, hdRmax, hdCount, hdTimes⟩ := commDispatch_counters answers.attempt task
  have hrouter : (commDispatch answers.attempt task).routerTask = false :=
    (commDispatch_frame task answers.attempt).1.trans (hframe.routerTask.trans hw.routerTask)
  have hmade : (attempts (w.log ++ [Event.attempt]) : Int) = attempts w.log + 1 := by
    simp [attempts]
  constructor
  · rw [attempts_done lib answers hrouter (hdRedirect.trans hredirect)]
    exact le_of_eq hmade
  · apply done_counters lib answers hone
    · exact hrouter
    · exact hdRedirect.trans hredirect
    · exact hw.queue
    · exact ⟨hdMax.trans hc.limits.1, hdRmax.trans hc.limits.2⟩
    · exact hdCount.symm ▸ hc.redirects
    · exact hdTimes.symm ▸ hc.retries
    · change (attempts (w.log ++ [Event.attempt]) : Int)
        = (commDispatch answers.attempt task).redirectCount
          + (commDispatch answers.attempt task).retryTimes + 1
      have hattempts := hc.attempts
      rw [hmade, hdCount, hdTimes]
      exact congrArg (· + 1) hattempts

theorem dispatch_counters (lib : Library) (answers : Answers) (hone : redirectMax ≤ 0 ∨ retryMax ≤ 0)
    (hw : Running w) (hc : Counted redirectMax retryMax w) :
    (attempts (dispatch lib answers w).log : Int) ≤ attempts w.log + 1 ∧
    ((dispatch lib answers w).busy = true →
      Counted redirectMax retryMax (dispatch lib answers w)) := by
  obtain ⟨hframe, hredirect, -, -⟩ := checkOnce_frame w.task
  obtain ⟨hmax, hrmax, hcount, htimes⟩ := checkOnce_counters w.task
  rw [hw.redirect] at hredirect
  have hchecked : Counted redirectMax retryMax { w with task := checkOnce w.task } := by
    refine ⟨⟨hmax.trans hc.limits.1, hrmax.trans hc.limits.2⟩, ?_, ?_, ?_⟩
    · exact hcount.symm ▸ hc.redirects
    · exact htimes.symm ▸ hc.retries
    · change (attempts w.log : Int) = (checkOnce w.task).redirectCount + (checkOnce w.task).retryTimes
      rw [hcount, htimes, hc.attempts]
  unfold dispatch
  dsimp only
  generalize checkOnce w.task = task at *
  by_cases hzero : task.initState = 0
  · rw [if_neg (by simpa using hzero)]
    exact dropped_counters lib answers hw hframe hredirect
  · rw [if_pos hzero]
    by_cases hobject : task.routeResult.requestObject.isSome
    · rw [if_pos hobject]
      exact sent_counters lib answers hone hw hframe hredirect hchecked
    · rw [if_neg hobject]
      split_ifs
      · have hrouting : done lib answers (World.pushFront (.router {})
            { w with task := { task with routerTask := true, isRetry := false } })
            = { w with
                task := { task with routerTask := false, isRetry := false }
                current := some (.router {}) } := rfl
        rw [hrouting]
        exact ⟨by simp, fun _ =>
          ⟨hchecked.limits, hchecked.redirects, hchecked.retries, hchecked.attempts⟩⟩
      · exact dropped_counters lib answers hw (hframe.trans ⟨rfl, rfl, rfl⟩) hredirect
      · exact dropped_counters lib answers hw (hframe.trans ⟨rfl, rfl, rfl⟩) hredirect

theorem attempts_routerCallback (router : RouterTask) (w : World) :
    attempts (routerCallback router w).pop.log = attempts w.log := by
  rw [pop_log]
  unfold routerCallback
  generalize (if router.state = .success then { w.task with routeResult := router.routeResult }
    else { w.task with state := router.state, error := router.error } : ComplexHttpTask) = task
  dsimp only
  split
  · rfl
  · have hnotify := attempts_callback (World.record (.notifyUnavailable none task.upstreamResult.cookie)
      { w with task := task })
    have hsame : attempts (w.log ++ [.notifyUnavailable none task.upstreamResult.cookie])
        = attempts w.log := attempts_append_of_ne (by simp)
    split
    · exact hnotify.trans hsame
    · exact (attempts_append_of_ne (by simp)).trans (hnotify.trans hsame)

theorem routerCallback_counters (router : RouterTask) (hc : Counted redirectMax retryMax w) :
    Counted redirectMax retryMax (routerCallback router w).pop := by
  have hlog := attempts_routerCallback router w
  have htask : (routerCallback router w).pop.task.redirectCount = w.task.redirectCount ∧
      (routerCallback router w).pop.task.retryTimes = w.task.retryTimes ∧
      (routerCallback router w).pop.task.redirectMax = w.task.redirectMax ∧
      (routerCallback router w).pop.task.retryMax = w.task.retryMax := by
    have hpop : ∀ v : World, v.pop.task = v.task := by
      intro v
      unfold World.pop
      cases v.queue <;> rfl
    rw [hpop]
    unfold routerCallback
    generalize hrouted : (if router.state = .success then
        { w.task with routeResult := router.routeResult }
      else { w.task with state := router.state, error := router.error } : ComplexHttpTask) = task
    have hframe : task.redirectCount = w.task.redirectCount ∧ task.retryTimes = w.task.retryTimes ∧
        task.redirectMax = w.task.redirectMax ∧ task.retryMax = w.task.retryMax := by
      rw [← hrouted]
      split_ifs <;> exact ⟨rfl, rfl, rfl, rfl⟩
    dsimp only
    split
    · exact hframe
    · split
      · dsimp only [World.pushFront]
        rw [callback_task]
        exact hframe
      · change (callback _).task.redirectCount = _ ∧ (callback _).task.retryTimes = _ ∧
          (callback _).task.redirectMax = _ ∧ (callback _).task.retryMax = _
        rw [callback_task]
        exact hframe
  obtain ⟨hcount, htimes, hmax, hrmax⟩ := htask
  refine ⟨⟨hmax.trans hc.limits.1, hrmax.trans hc.limits.2⟩, ?_, ?_, ?_⟩
  · rw [hcount]
    exact hc.redirects
  · rw [htimes]
    exact hc.retries
  · rw [hlog, hcount, htimes]
    exact hc.attempts

theorem step_counters (lib : Library) (answers : Answers) (hone : redirectMax ≤ 0 ∨ retryMax ≤ 0)
    (hw : Running w) (hc : Counted redirectMax retryMax w) (hbusy : w.busy = true) :
    (attempts (step lib answers w).log : Int) ≤ attempts w.log + 1 ∧
    ((step lib answers w).busy = true → Counted redirectMax retryMax (step lib answers w)) := by
  have hrouted : ∀ router : RouterTask,
      (attempts (routerCallback router w).pop.log : Int) ≤ attempts w.log + 1 ∧
      ((routerCallback router w).pop.busy = true →
        Counted redirectMax retryMax (routerCallback router w).pop) := by
    intro router
    rw [attempts_routerCallback]
    exact ⟨by omega, fun _ => routerCallback_counters router hc⟩
  cases hcurrent : w.current with
  | none => simp [World.busy, hcurrent] at hbusy
  | some item =>
      cases item with
      | other id => simp [World.busy, hcurrent, Item.isOwn] at hbusy
      | origin =>
          simp only [step, hcurrent]
          exact dispatch_counters lib answers hone hw hc
      | router router =>
          simp only [step, hcurrent, routerDispatch]
          split_ifs
          · exact ⟨by simp [pop_pushFront],
              fun _ => ⟨hc.limits, hc.redirects, hc.retries, hc.attempts⟩⟩
          · exact hrouted _
      | dns router =>
          simp only [step, hcurrent, dnsDone]
          exact hrouted _

end Counted

section Runs

variable (lib : Library) (choice : Choice) (url : Bytes) (redirectMax retryMax : Int)
  (rest : List Nat) (answers : Nat → Answers)

theorem counted_start : Counted redirectMax retryMax
    (start (createHttpTask lib choice url redirectMax retryMax true) rest) := by
  have hframe := init_frame lib choice (newTask lib redirectMax retryMax true) (lib.parse url {})
  have hcount : (start (createHttpTask lib choice url redirectMax retryMax true)
      rest).task.redirectCount = 0 := hframe.redirectCount
  have htimes : (start (createHttpTask lib choice url redirectMax retryMax true)
      rest).task.retryTimes = 0 := hframe.retryTimes
  refine ⟨⟨hframe.redirectMax, hframe.retryMax⟩, ?_, ?_, ?_⟩
  · rw [hcount]
    omega
  · rw [htimes]
    omega
  · rw [hcount, htimes]
    rfl

/-- With one limit at most 0, the number of attempts is bounded by the other, whatever the other
components answer. -/
theorem attempts_le_of_limit (hone : redirectMax ≤ 0 ∨ retryMax ≤ 0) (n : Nat) :
    (attempts (run lib answers (start (createHttpTask lib choice url redirectMax retryMax true) rest)
      n).log : Int) ≤ max redirectMax 0 + max retryMax 0 + 1 := by
  have hinvariant : ∀ n,
      ((run lib answers (start (createHttpTask lib choice url redirectMax retryMax true) rest)
        n).busy = true → Counted redirectMax retryMax
          (run lib answers (start (createHttpTask lib choice url redirectMax retryMax true) rest) n)) ∧
      (attempts (run lib answers (start (createHttpTask lib choice url redirectMax retryMax true) rest)
        n).log : Int) ≤ max redirectMax 0 + max retryMax 0 + 1 := by
    intro n
    induction n with
    | zero =>
        refine ⟨fun _ => counted_start lib choice url redirectMax retryMax rest, ?_⟩
        change (0 : Int) ≤ _
        omega
    | succ n ih =>
        have hrunning := running_run lib choice url redirectMax retryMax rest answers n
        rw [run]
        generalize run lib answers
          (start (createHttpTask lib choice url redirectMax retryMax true) rest) n = w at ih hrunning ⊢
        cases hbusy : w.busy with
        | false =>
            rw [step_of_not_busy lib (answers n) hbusy]
            exact ih
        | true =>
            have hc := ih.1 hbusy
            obtain ⟨hstep, hnext⟩ := step_counters lib (answers n) hone (hrunning hbusy) hc hbusy
            refine ⟨hnext, hstep.trans ?_⟩
            have hattempts := hc.attempts
            have hredirects := hc.redirects.2
            have hretries := hc.retries.2
            omega
  exact (hinvariant n).2

end Runs

def Choice.good : Choice → Bool
  | .failed _ => false
  | .allDown => false
  | _ => true

/-- The host resolves and has a route. -/
def Answers.routes (answers : Answers) : Bool :=
  match answers.cached, answers.literal, answers.dns with
  | some (.routed _ _), _, _ => true
  | none, some (.addresses (.routed _ _)), _ => true
  | none, none, .resolved (.addresses (.routed _ _)) => true
  | _, _, _ => false

def isRedirect (resp : Http.HttpParser) : Bool :=
  resp.code.any fun code => atoi code ∈ [301, 302, 303, 307, 308]

def ValidUrl (lib : Library) (url : Bytes) : Prop :=
  ∀ uri, (lib.parse url uri).state = .success ∧
    0 ≤ (lib.parse url uri).portNumber ∧ (lib.parse url uri).portNumber ≤ 65535

/-- A target is acquired, and the server redirects to a valid URL, answers something else or fails. -/
def Replied (lib : Library) : Attempt → Prop
  | .notAcquired _ => False
  | .notSent _ _ => True
  | .handled _ .success _ resp => isRedirect resp →
      ∃ url, findHeader (bytesOf "Location") resp = some url ∧ url ≠ [] ∧ ValidUrl lib url
  | .handled _ .error _ _ => True
  | .handled _ .stopped _ _ => False

structure Served (lib : Library) (answers : Answers) : Prop where
  redirectChoice : answers.redirectChoice.good
  retryChoice : answers.retryChoice.good
  routes : answers.routes
  replied : Replied lib answers.attempt

/-- A task that waits to be dispatched for its next attempt, with the URL of `localLibrary`. -/
structure Waiting (redirectMax retryMax redirectCount retryTimes : Int) (w : World) : Prop where
  current : w.current = some .origin
  initState : w.task.initState = 1
  routeResult : w.task.routeResult = {}
  uri : w.task.uri.state = .success
  originalUri : ∃ uri, w.task.originalUri = localLibrary.parse (bytesOf "http://127.0.0.1/") uri
  hasOriginalUri : w.task.hasOriginalUri = true
  isSockaddr : w.task.isSockaddr = false
  routerTask : w.task.routerTask = false
  redirect : w.task.redirect = false
  method : w.task.method = some (bytesOf "GET")
  limits : w.task.redirectMax = redirectMax ∧ w.task.retryMax = retryMax
  counters : w.task.redirectCount = redirectCount ∧ w.task.retryTimes = retryTimes

def redirectResponse : Http.HttpParser :=
  Http.httpParserAddHeader (bytesOf "Location") (bytesOf "http://127.0.0.1/")
    { okResponse with code := some (bytesOf "302"), phrase := some (bytesOf "Found") }

def failing : Answers := { servedBy okResponse with attempt := .handled 1 .error 104 okResponse }

/-- Every attempt takes three steps: to the router, back from it, and to the scheduler. -/
def alternating (n : Nat) : Answers :=
  if n / 3 % 2 = 0 then servedBy redirectResponse else failing

theorem served_alternating (n : Nat) : Served localLibrary (alternating n) := by
  unfold alternating
  split_ifs
  · refine ⟨rfl, rfl, rfl, fun _ => ⟨bytesOf "http://127.0.0.1/", by decide +kernel, by decide, ?_⟩⟩
    intro uri
    have hport : (localLibrary.parse (bytesOf "http://127.0.0.1/") uri).portNumber = 0 := rfl
    exact ⟨rfl, by rw [hport], by rw [hport]; decide⟩
  · exact ⟨rfl, rfl, rfl, trivial⟩

theorem attempt_of_waiting {lib : Library} {redirectMax retryMax redirectCount retryTimes : Int}
    {w : World} (hw : Waiting redirectMax retryMax redirectCount retryTimes w) (a b c : Answers)
    (hb : b.cached = some (.routed 1 1)) :
    step lib c (step lib b (step lib a w)) = done lib c (World.record .attempt
      { w with task := commDispatch c.attempt { w.task with
          initState := 2
          isRetry := false
          routerTask := false
          routeResult := ⟨some 1, some 1⟩ } }) := by
  have hfirst : step lib a w = { w with
      task := { w.task with initState := 2, isRetry := false, routerTask := false }
      current := some (.router {}) } := by
    have hcheck : checkOnce w.task = { w.task with initState := 2 } := by
      rw [checkOnce, if_pos hw.initState]
      rfl
    rw [step, hw.current]
    dsimp only
    unfold dispatch
    rw [hcheck]
    dsimp only
    rw [if_pos (by decide), if_neg (by rw [hw.routeResult]; decide), if_pos (Or.inr hw.uri)]
    rfl
  rw [hfirst]
  have hsecond : step lib b { w with
      task := { w.task with initState := 2, isRetry := false, routerTask := false }
      current := some (.router {}) } = { w with
      task := { w.task with
        initState := 2
        isRetry := false
        routerTask := false
        routeResult := ⟨some 1, some 1⟩ }
      current := some .origin } := by
    simp only [step, routerDispatch, hb]
    rfl
  rw [hsecond]
  simp only [step, dispatch, checkOnce]
  rw [hw.current]
  rfl

theorem init_localUrl (task : ComplexHttpTask) (uri : ParsedURI)
    (horiginal : task.hasOriginalUri = true) :
    let parsed := localLibrary.parse (bytesOf "http://127.0.0.1/") uri
    let next := init localLibrary .notFound parsed task
    next.initState = 1 ∧ next.routeResult = {} ∧ next.uri.state = .success ∧
      next.originalUri = parsed ∧ next.hasOriginalUri = true ∧ next.isSockaddr = false ∧
      next.state = task.state := by
  unfold init initWithUri keepOriginalUri
  dsimp only
  rw [if_pos horiginal]
  exact ⟨rfl, rfl, rfl, rfl, rfl, rfl, rfl⟩

section Alternating

variable {redirectMax retryMax redirectCount retryTimes : Int} {w : World}

theorem attempts_of_waiting (lib : Library)
    (hw : Waiting redirectMax retryMax redirectCount retryTimes w) (a b c : Answers)
    (hb : b.cached = some (.routed 1 1)) :
    attempts (step lib c (step lib b (step lib a w))).log = attempts w.log + 1 := by
  rw [attempt_of_waiting hw a b c hb, attempts_done lib c]
  · simp [attempts, World.record]
  · cases c.attempt <;> rfl
  · cases c.attempt <;> exact hw.redirect

/-- A task that `done` queues again, initialised with the URL of `localLibrary`. -/
theorem waiting_of_requeued {next : World} {answers : Answers} (task : ComplexHttpTask)
    (uri : ParsedURI) (hrouter : w.task.routerTask = false) (hinit : w.task.initState ≠ 0)
    (hfinish : finishAttempt localLibrary answers w = (false, next))
    (hnext : next.task.target = task.target ∧ next.task.redirect = true ∧
      next.task.routerTask = task.routerTask ∧ next.task.method = task.method ∧
      next.task.redirectMax = task.redirectMax ∧ next.task.retryMax = task.retryMax)
    (hurl : next.task.routeResult = {} ∧ next.task.uri.state = .success ∧
      next.task.originalUri = localLibrary.parse (bytesOf "http://127.0.0.1/") uri ∧
      next.task.hasOriginalUri = true ∧ next.task.isSockaddr = false)
    (htask : task.target.isSome ∧ task.routerTask = false ∧ task.method = some (bytesOf "GET") ∧
      task.redirectMax = redirectMax ∧ task.retryMax = retryMax) :
    Waiting redirectMax retryMax next.task.redirectCount next.task.retryTimes
      (done localLibrary answers w) := by
  obtain ⟨htarget, hset, hnrouter, hmethod, hmax, hrmax⟩ := hnext
  obtain ⟨hroute, huri, horiginal, hkeep, hsock⟩ := hurl
  have hsome : next.task.target ≠ none := by
    rw [htarget]
    exact Option.isSome_iff_ne_none.mp htask.1
  have hdone : done localLibrary answers w = (switchCallback localLibrary next).pop := by
    simp only [done, hrouter, Bool.false_eq_true, ↓reduceIte, ne_eq, hinit, not_false_eq_true,
      hfinish, hsome]
  rw [hdone]
  unfold switchCallback
  simp only [hset, Bool.not_true, Bool.false_eq_true, ↓reduceIte, pop_pushFront]
  exact ⟨rfl, rfl, hroute, huri, ⟨uri, horiginal⟩, hkeep, hsock, hnrouter.trans htask.2.1, rfl,
    hmethod.trans htask.2.2.1, ⟨hmax.trans htask.2.2.2.1, hrmax.trans htask.2.2.2.2⟩, rfl, rfl⟩

theorem waiting_redirected (hw : Waiting redirectMax retryMax redirectCount retryTimes w)
    (hlimit : redirectCount < redirectMax) (a b : Answers) (hb : b.cached = some (.routed 1 1)) :
    Waiting redirectMax retryMax (redirectCount + 1) 0
      (step localLibrary (servedBy redirectResponse)
        (step localLibrary b (step localLibrary a w))) := by
  rw [attempt_of_waiting hw a b _ hb]
  let task : ComplexHttpTask := commDispatch (servedBy redirectResponse).attempt { w.task with
    initState := 2, isRetry := false, routerTask := false, routeResult := ⟨some 1, some 1⟩ }
  change Waiting _ _ _ _ (done _ _ (World.record .attempt { w with task := task }))
  let parsed := localLibrary.parse (bytesOf "http://127.0.0.1/") task.uri
  let moved : ComplexHttpTask :=
    { task with redirectCount := task.redirectCount + 1, uri := parsed }
  have hneed : needRedirect localLibrary task = (true, moved) := by
    have hcount : task.redirectCount < task.redirectMax := by
      change w.task.redirectCount < w.task.redirectMax
      rw [hw.counters.1, hw.limits.1]
      exact hlimit
    have hcode : task.resp.code = some (bytesOf "302") := rfl
    have hmethod : task.method = some (bytesOf "GET") := hw.method
    have hurl : redirectUrl localLibrary task = (true, moved) := by
      rw [redirectUrl, if_pos hcount]
      rfl
    rw [needRedirect, hcode, hmethod]
    dsimp only
    have hget : strcaseEq (bytesOf "GET") (bytesOf "GET") = true := by decide
    rw [if_pos (by decide), hurl, if_neg (by simp [hget])]
  have hfinish : finishOnce localLibrary .notFound task
      = (true, setRedirect localLibrary .notFound parsed moved) := by
    have hstate : task.state = .success := rfl
    rw [finishOnce, if_pos hstate, hneed]
    rfl
  have hframe := init_frame localLibrary .notFound { moved with redirect := true } parsed
  obtain ⟨-, hroute, huri, horiginal, hkeep, hsock, hstate⟩ :=
    init_localUrl { moved with redirect := true } task.uri hw.hasOriginalUri
  have hattempt : (finishAttempt localLibrary (servedBy redirectResponse)
        (World.record .attempt { w with task := task })).1 = false ∧
      (finishAttempt localLibrary (servedBy redirectResponse)
        (World.record .attempt { w with task := task })).2.task
        = { setRedirect localLibrary .notFound parsed moved with upstreamResult := {} } := by
    have hsuccess : (setRedirect localLibrary .notFound parsed moved).state = .success := hstate
    unfold finishAttempt
    dsimp only [World.record]
    rw [show (servedBy redirectResponse).redirectChoice = .notFound from rfl, hfinish]
    dsimp only
    rw [if_pos hsuccess]
    exact ⟨rfl, rfl⟩
  obtain ⟨hfirst, htask⟩ := hattempt
  generalize hnext : (finishAttempt localLibrary (servedBy redirectResponse)
    (World.record .attempt { w with task := task })).2 = next at htask
  have hwaiting : Waiting redirectMax retryMax next.task.redirectCount next.task.retryTimes
      (done localLibrary (servedBy redirectResponse)
        (World.record .attempt { w with task := task })) :=
    waiting_of_requeued moved task.uri rfl (by change 2 ≠ 0; decide) (Prod.ext hfirst hnext)
    (by
      rw [htask]
      exact ⟨hframe.target, hframe.redirect, hframe.routerTask, hframe.method, hframe.redirectMax,
        hframe.retryMax⟩)
    (by
      rw [htask]
      exact ⟨hroute, huri, horiginal, hkeep, hsock⟩)
    ⟨rfl, rfl, hw.method, hw.limits.1, hw.limits.2⟩
  have hcount : next.task.redirectCount = redirectCount + 1 := by
    rw [htask]
    refine hframe.redirectCount.trans ?_
    change w.task.redirectCount + 1 = _
    rw [hw.counters.1]
  have htimes : next.task.retryTimes = 0 := by
    rw [htask]
    rfl
  rwa [hcount, htimes] at hwaiting

theorem waiting_retried (hw : Waiting redirectMax retryMax redirectCount retryTimes w)
    (hlimit : retryTimes < retryMax) (a b : Answers) (hb : b.cached = some (.routed 1 1)) :
    Waiting redirectMax retryMax 0 (retryTimes + 1)
      (step localLibrary failing (step localLibrary b (step localLibrary a w))) := by
  rw [attempt_of_waiting hw a b _ hb]
  let task : ComplexHttpTask := commDispatch failing.attempt { w.task with
    initState := 2, isRetry := false, routerTask := false, routeResult := ⟨some 1, some 1⟩ }
  change Waiting _ _ _ _ (done _ _ (World.record .attempt { w with task := task }))
  let ended : ComplexHttpTask :=
    { task with resp := { task.resp with complete := true }, redirectCount := 0 }
  have hfinish : finishOnce localLibrary .notFound task = (true, ended) := by
    have hstate : task.state ≠ .success := by
      change TaskState.sysError ≠ .success
      decide
    rw [finishOnce, if_neg hstate]
  obtain ⟨uri, hparsed⟩ := hw.originalUri
  have horiginal : ended.originalUri = localLibrary.parse (bytesOf "http://127.0.0.1/") uri := hparsed
  have hframe := init_frame localLibrary .notFound { ended with redirect := true } ended.originalUri
  obtain ⟨-, hroute, huri, hkept, hkeep, hsock, -⟩ :=
    init_localUrl { ended with redirect := true } uri hw.hasOriginalUri
  rw [← horiginal] at hroute huri hkept hkeep hsock
  have hattempt : (finishAttempt localLibrary failing
        (World.record .attempt { w with task := task })).1 = false ∧
      (finishAttempt localLibrary failing
        (World.record .attempt { w with task := task })).2.task
        = { setRetry localLibrary .notFound ended.originalUri ended with isRetry := true } := by
    have hsys : ended.state = .sysError := rfl
    have hbelow : ended.retryTimes < ended.retryMax := by
      change w.task.retryTimes < w.task.retryMax
      rw [hw.counters.2, hw.limits.2]
      exact hlimit
    have hplain : ended.isSockaddr = false := hw.isSockaddr
    unfold finishAttempt
    dsimp only [World.record]
    rw [show failing.redirectChoice = .notFound from rfl, hfinish]
    dsimp only
    rw [if_neg (by rw [hsys]; decide), if_pos hsys, if_pos hbelow, if_neg (by rw [hplain]; decide)]
    exact ⟨rfl, rfl⟩
  obtain ⟨hfirst, htask⟩ := hattempt
  generalize hnext : (finishAttempt localLibrary failing
    (World.record .attempt { w with task := task })).2 = next at htask
  have hwaiting : Waiting redirectMax retryMax next.task.redirectCount next.task.retryTimes
      (done localLibrary failing (World.record .attempt { w with task := task })) :=
    waiting_of_requeued ended uri rfl (by change 2 ≠ 0; decide) (Prod.ext hfirst hnext)
    (by
      rw [htask]
      exact ⟨hframe.target, hframe.redirect, hframe.routerTask, hframe.method, hframe.redirectMax,
        hframe.retryMax⟩)
    (by
      rw [htask]
      exact ⟨hroute, huri, hkept.trans horiginal, hkeep, hsock⟩)
    ⟨rfl, rfl, hw.method, hw.limits.1, hw.limits.2⟩
  have hcount : next.task.redirectCount = 0 := by
    rw [htask]
    exact hframe.redirectCount
  have htimes : next.task.retryTimes = retryTimes + 1 := by
    rw [htask]
    change w.task.retryTimes + 1 = _
    rw [hw.counters.2]
  rwa [hcount, htimes] at hwaiting

end Alternating

section Bound

variable (redirectMax retryMax : Int)

/-- A task for the URL of `localLibrary`, alone in its series. -/
def localStart : World :=
  start (createHttpTask localLibrary .notFound (bytesOf "http://127.0.0.1/") redirectMax retryMax true) []

theorem waiting_localStart : Waiting redirectMax retryMax 0 0 (localStart redirectMax retryMax) := by
  obtain ⟨hinit, hroute, huri, horiginal, hkeep, hsock, -⟩ := init_localUrl
    (newTask localLibrary redirectMax retryMax true) {} rfl
  exact ⟨rfl, hinit, hroute, huri, ⟨_, horiginal⟩, hkeep, hsock, rfl, rfl, rfl, ⟨rfl, rfl⟩, rfl, rfl⟩

theorem alternating_of_lt {k i : Nat} (hi : i < 3) :
    alternating (3 * k + i) = if k % 2 = 0 then servedBy redirectResponse else failing := by
  have hdiv : (3 * k + i) / 3 = k := by omega
  rw [alternating, hdiv]

theorem alternating_cached (n : Nat) : (alternating n).cached = some (.routed 1 1) := by
  unfold alternating
  split_ifs <;> rfl

theorem run_cycle (k : Nat) :
    run localLibrary alternating (localStart redirectMax retryMax) (3 * (k + 1))
      = step localLibrary (alternating (3 * k + 2)) (step localLibrary (alternating (3 * k + 1))
          (step localLibrary (alternating (3 * k))
            (run localLibrary alternating (localStart redirectMax retryMax) (3 * k)))) := rfl

/-- With both limits positive the server keeps the task going: one attempt in every three steps. -/
theorem waiting_alternating (hredirect : 1 ≤ redirectMax) (hretry : 1 ≤ retryMax) (k : Nat) :
    attempts (run localLibrary alternating (localStart redirectMax retryMax) (3 * k)).log = k ∧
    ∃ retryTimes, Waiting redirectMax retryMax (if k % 2 = 0 then 0 else 1) retryTimes
      (run localLibrary alternating (localStart redirectMax retryMax) (3 * k)) ∧
      (k % 2 = 1 → retryTimes = 0) := by
  induction k with
  | zero => exact ⟨rfl, 0, waiting_localStart redirectMax retryMax, fun _ => rfl⟩
  | succ k ih =>
      obtain ⟨hcount, retryTimes, hwaiting, hzero⟩ := ih
      have hcached := alternating_cached (3 * k + 1)
      have hattempt := attempts_of_waiting localLibrary hwaiting (alternating (3 * k))
        (alternating (3 * k + 1)) (alternating (3 * k + 2)) hcached
      rw [run_cycle]
      refine ⟨by rw [hattempt, hcount], ?_⟩
      have hanswer := alternating_of_lt (k := k) (i := 2) (by decide)
      rcases Nat.mod_two_eq_zero_or_one k with heven | hodd
      · rw [if_pos heven] at hwaiting hanswer
        refine ⟨0, ?_, fun _ => rfl⟩
        rw [hanswer, if_neg (by omega)]
        exact waiting_redirected hwaiting (by omega) _ _ hcached
      · rw [if_neg (by omega)] at hwaiting hanswer
        refine ⟨retryTimes + 1, ?_, fun h => by omega⟩
        rw [hanswer, if_pos (by omega)]
        refine waiting_retried hwaiting ?_ _ _ hcached
        rw [hzero hodd]
        omega

theorem attempts_first :
    attempts (run localLibrary alternating (localStart redirectMax retryMax) 3).log = 1 := by
  have hattempt := attempts_of_waiting localLibrary (waiting_localStart redirectMax retryMax)
    (alternating 0) (alternating 1) (alternating 2) (alternating_cached 1)
  exact hattempt

/-- The product bounds the attempts for every server if and only if one limit is 0 and the other not
negative, or, with limits that make no sense, both are at most -2. -/
theorem attempts_le_iff :
    (∀ (lib : Library) (choice : Choice) (url : Bytes) (rest : List Nat) (answers : Nat → Answers),
      choice.good → ValidUrl lib url → (∀ n, Served lib (answers n)) → ∀ n,
        (attempts (run lib answers
          (start (createHttpTask lib choice url redirectMax retryMax true) rest) n).log : Int)
          ≤ (redirectMax + 1) * (retryMax + 1)) ↔
      (0 ≤ redirectMax ∧ 0 ≤ retryMax ∧ (redirectMax = 0 ∨ retryMax = 0)) ∨
        (redirectMax ≤ -2 ∧ retryMax ≤ -2) := by
  constructor
  · intro hbound
    have hlocal : ∀ n, (attempts (run localLibrary alternating (localStart redirectMax retryMax)
        n).log : Int) ≤ (redirectMax + 1) * (retryMax + 1) := by
      refine hbound localLibrary .notFound (bytesOf "http://127.0.0.1/") [] alternating rfl ?_
        served_alternating
      intro uri
      have hport : (localLibrary.parse (bytesOf "http://127.0.0.1/") uri).portNumber = 0 := rfl
      exact ⟨rfl, by rw [hport], by rw [hport]; decide⟩
    by_contra hnot
    by_cases hpositive : 1 ≤ redirectMax ∧ 1 ≤ retryMax
    · have hmany := hlocal (3 * ((redirectMax + 1) * (retryMax + 1) + 1).toNat)
      rw [(waiting_alternating redirectMax retryMax hpositive.1 hpositive.2 _).1] at hmany
      omega
    · have hone := hlocal 3
      rw [attempts_first] at hone
      -- the bound itself is not positive
      have hsmall : (redirectMax + 1) * (retryMax + 1) ≤ 0 := by
        rcases lt_or_ge redirectMax 0 with hneg | hpos
        · rcases lt_or_ge retryMax 0 with hneg' | hpos'
          · rcases eq_or_lt_of_le (show redirectMax ≤ -1 by omega) with heq | hlt
            · simp [heq]
            · have : retryMax = -1 := by omega
              simp [this]
          · exact mul_nonpos_of_nonpos_of_nonneg (by omega) (by omega)
        · exact mul_nonpos_of_nonneg_of_nonpos (by omega) (by omega)
      norm_num at hone
      omega
  · intro hlimits lib choice url rest answers _ _ _ n
    have hone : redirectMax ≤ 0 ∨ retryMax ≤ 0 := by omega
    refine (attempts_le_of_limit lib choice url redirectMax retryMax rest answers hone n).trans ?_
    rcases hlimits with ⟨hpos, hpos', rfl | rfl⟩ | ⟨hneg, hneg'⟩
    · rw [max_self, max_eq_left hpos']
      omega
    · rw [max_self, max_eq_left hpos]
      omega
    · rw [max_eq_right (by omega), max_eq_right (by omega)]
      nlinarith

end Bound

/-- Five attempts under limits of one redirect and one retry. -/
theorem attempts_exceed_product :
    (∀ n, Served localLibrary (alternating n)) ∧
    attempts (run localLibrary alternating (localStart 1 1) 15).log = 5 ∧
    ¬ (attempts (run localLibrary alternating (localStart 1 1) 15).log : Int) ≤ (1 + 1) * (1 + 1) := by
  have hfive : attempts (run localLibrary alternating (localStart 1 1) 15).log = 5 :=
    (waiting_alternating 1 1 (by decide) (by decide) 5).1
  exact ⟨served_alternating, hfive, by rw [hfive]; decide⟩

end WorkflowModel.Client
