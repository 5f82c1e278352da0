import WorkflowModel.Client.Task
import WorkflowModel.Proof.ClientCallback

/-!
# The original URI

`init_with_uri` stores the URI while `has_original_uri_` is true, which it is from the constructor on.
So each redirect stores its own, and a retry after it does not go back to the URI that the task was made
with.
-/

namespace WorkflowModel.Client

open WorkflowModel

/-- What happens to a task between its first `init` and its end, as far as the URIs go. -/
inductive Move where
  /-- `set_redirect(uri)`, in `finish_once` or in the callback of the user. -/
  | redirect (choice : Choice) (uri : ParsedURI)
  /-- What `done` does behind `finish_once`. -/
  | retry (choice : Choice)
  /-- Anything else. It does not touch the original URI, and it is no redirect to an address. -/
  | other (after : ComplexHttpTask)

def Retries (task : ComplexHttpTask) : Prop :=
  task.state = .sysError ∧ task.retryTimes < task.retryMax

instance (task : ComplexHttpTask) : Decidable (Retries task) := by
  unfold Retries
  infer_instance

def Move.run (lib : Library) : Move → ComplexHttpTask → ComplexHttpTask
  | .redirect choice uri, task => setRedirect lib choice uri task
  | .retry choice, task =>
      if Retries task then
        let next :=
          if task.isSockaddr then { task with redirect := true, retryTimes := task.retryTimes + 1 }
          else setRetry lib choice task.originalUri task
        { next with isRetry := true }
      else
        task
  | .other after, task =>
      { after with
        originalUri := task.originalUri
        hasOriginalUri := task.hasOriginalUri
        isSockaddr := task.isSockaddr }

def runMoves (lib : Library) (moves : List Move) (task : ComplexHttpTask) : ComplexHttpTask :=
  moves.foldl (fun task move => move.run lib task) task

/-- The law, for the URI `u` of the first `init`. -/
structure KeepsUri (lib : Library) (u : ParsedURI) (moves : List Move) (task : ComplexHttpTask) :
    Prop where
  original : ∀ before after, moves = before ++ after →
    (runMoves lib before task).originalUri = u.copy
  retries : ∀ before choice after, moves = before ++ .retry choice :: after →
    Retries (runMoves lib before task) →
    runMoves lib (before ++ [.retry choice]) task =
      { setRetry lib choice u.copy (runMoves lib before task) with isRetry := true }

variable {lib : Library} {choice : Choice} {task after : ComplexHttpTask} {move : Move}
  {moves : List Move} {u uri : ParsedURI}

theorem runMoves_append (before moves : List Move) (task : ComplexHttpTask) :
    runMoves lib (before ++ moves) task = runMoves lib moves (runMoves lib before task) :=
  List.foldl_append

@[simp] theorem ParsedURI.copy_copy (uri : ParsedURI) : uri.copy.copy = uri.copy := by
  unfold ParsedURI.copy
  split_ifs with h
  · rfl
  · rfl

structure SameOriginal (p q : ComplexHttpTask) : Prop where
  originalUri : q.originalUri = p.originalUri
  hasOriginalUri : q.hasOriginalUri = p.hasOriginalUri
  isSockaddr : q.isSockaddr = p.isSockaddr

theorem SameOriginal.trans {p q r : ComplexHttpTask} (h : SameOriginal p q) (h' : SameOriginal q r) :
    SameOriginal p r :=
  ⟨h'.originalUri.trans h.originalUri, h'.hasOriginalUri.trans h.hasOriginalUri,
    h'.isSockaddr.trans h.isSockaddr⟩

theorem setPort_same (lib : Library) (task : ComplexHttpTask) :
    SameOriginal task (setPort lib task).2 := by
  unfold setPort
  split
  · exact ⟨rfl, rfl, rfl⟩
  · split
    · split <;> exact ⟨rfl, rfl, rfl⟩
    · exact ⟨rfl, rfl, rfl⟩

theorem chooseUpstream_same (choice : Choice) (task : ComplexHttpTask) :
    SameOriginal task (chooseUpstream choice task) := by
  unfold chooseUpstream
  split
  · exact ⟨rfl, rfl, rfl⟩
  · split <;> exact ⟨rfl, rfl, rfl⟩

/-- Behind its first statement `init_with_uri` changes `uri_` only. -/
theorem initWithUri_same (lib : Library) (choice : Choice) (task : ComplexHttpTask) :
    SameOriginal (keepOriginalUri task) (initWithUri lib choice task) := by
  have hclear : SameOriginal (keepOriginalUri task) { keepOriginalUri task with routeResult := {} } :=
    ⟨rfl, rfl, rfl⟩
  refine hclear.trans ?_
  unfold initWithUri
  generalize ({ keepOriginalUri task with routeResult := {} } : ComplexHttpTask) = kept
  have hport := setPort_same lib kept
  dsimp only
  split_ifs
  · exact hport.trans (chooseUpstream_same choice _)
  · exact hport.trans ⟨rfl, rfl, rfl⟩
  · exact ⟨rfl, rfl, rfl⟩
  · exact ⟨rfl, rfl, rfl⟩

/-- The original URI of a task that is not bound to an address. -/
structure Stores (uri : ParsedURI) (task : ComplexHttpTask) : Prop where
  originalUri : task.originalUri = uri.copy
  hasOriginalUri : task.hasOriginalUri = true
  isSockaddr : task.isSockaddr = false

theorem Stores.of_same (h : Stores uri task) (hsame : SameOriginal task after) : Stores uri after :=
  ⟨hsame.originalUri.trans h.originalUri, hsame.hasOriginalUri.trans h.hasOriginalUri,
    hsame.isSockaddr.trans h.isSockaddr⟩

theorem stores_init (hhas : task.hasOriginalUri = true) : Stores uri (init lib choice uri task) := by
  refine Stores.of_same ?_ (initWithUri_same lib choice _)
  unfold keepOriginalUri
  rw [if_pos hhas]
  exact ⟨rfl, rfl, rfl⟩

theorem stores_setRedirect (hhas : task.hasOriginalUri = true) :
    Stores uri (setRedirect lib choice uri task) := by
  have h : Stores uri (init lib choice uri { task with redirect := true }) := stores_init hhas
  exact ⟨h.originalUri, h.hasOriginalUri, h.isSockaddr⟩

theorem stores_setRetry (hhas : task.hasOriginalUri = true) :
    Stores uri (setRetry lib choice uri task) := by
  have h : Stores uri (init lib choice uri { task with redirect := true }) := stores_init hhas
  exact ⟨h.originalUri, h.hasOriginalUri, h.isSockaddr⟩

theorem retry_run (h : Stores uri task) (hretries : Retries task) :
    (Move.retry choice).run lib task = { setRetry lib choice uri.copy task with isRetry := true } := by
  rw [Move.run, if_pos hretries, h.isSockaddr, h.originalUri]
  rfl

/-- A retry stores what was stored; only a redirect can store something else. -/
theorem Stores.run_move (h : Stores u task)
    (hredirect : ∀ choice uri, move = .redirect choice uri → uri.copy = u.copy) :
    Stores u (move.run lib task) := by
  cases move with
  | redirect choice uri =>
      have hstores : Stores uri (setRedirect lib choice uri task) := stores_setRedirect h.hasOriginalUri
      exact ⟨hstores.originalUri.trans (hredirect choice uri rfl), hstores.hasOriginalUri,
        hstores.isSockaddr⟩
  | retry choice =>
      by_cases hretries : Retries task
      · rw [retry_run h hretries]
        have hstores : Stores u.copy (setRetry lib choice u.copy task) :=
          stores_setRetry h.hasOriginalUri
        exact ⟨hstores.originalUri.trans u.copy_copy, hstores.hasOriginalUri, hstores.isSockaddr⟩
      · rw [Move.run, if_neg hretries]
        exact h
  | other after => exact ⟨h.originalUri, h.hasOriginalUri, h.isSockaddr⟩

theorem Stores.run_moves (h : Stores u task)
    (hredirects : ∀ choice uri, .redirect choice uri ∈ moves → uri.copy = u.copy) :
    Stores u (runMoves lib moves task) := by
  induction moves generalizing task with
  | nil => exact h
  | cons move moves ih =>
      refine ih (h.run_move ?_) ?_
      · rintro choice uri rfl
        exact hredirects choice uri List.mem_cons_self
      · intro choice uri hmem
        exact hredirects choice uri (List.mem_cons_of_mem move hmem)

theorem Stores.exists_moves (h : Stores u task) (lib : Library) (moves : List Move) :
    ∃ uri, Stores uri (runMoves lib moves task) := by
  induction moves generalizing u task with
  | nil => exact ⟨u, h⟩
  | cons move moves ih =>
      cases move with
      | redirect choice uri => exact ih (stores_setRedirect h.hasOriginalUri)
      | retry choice => exact ih (h.run_move (by simp))
      | other after => exact ih (h.run_move (by simp))

/-- The original URI is kept as long as all redirects lead back to it. -/
theorem keepsUri_iff (lib : Library) (choice : Choice) (u : ParsedURI) (redirectMax retryMax : Int)
    (hasCallback : Bool) (moves : List Move) :
    KeepsUri lib u moves (init lib choice u (newTask lib redirectMax retryMax hasCallback)) ↔
      ∀ choice uri, .redirect choice uri ∈ moves → uri.copy = u.copy := by
  have hfirst : Stores u (init lib choice u (newTask lib redirectMax retryMax hasCallback)) :=
    stores_init rfl
  generalize init lib choice u (newTask lib redirectMax retryMax hasCallback) = task at hfirst ⊢
  constructor
  · rintro hkeeps choice uri hmem
    obtain ⟨before, after, rfl⟩ := List.append_of_mem hmem
    obtain ⟨v, hbefore⟩ := hfirst.exists_moves lib before
    have hstored : Stores uri (runMoves lib (before ++ [.redirect choice uri]) task) := by
      rw [runMoves_append]
      exact stores_setRedirect hbefore.hasOriginalUri
    have hkept := hkeeps.original (before ++ [.redirect choice uri]) after (by simp)
    exact hstored.originalUri.symm.trans hkept
  · intro hredirects
    have hbefore : ∀ before after, moves = before ++ after → Stores u (runMoves lib before task) := by
      rintro before after rfl
      refine hfirst.run_moves ?_
      intro choice uri hmem
      exact hredirects choice uri (List.mem_append_left after hmem)
    constructor
    · intro before after hmoves
      exact (hbefore before after hmoves).originalUri
    · intro before choice after hmoves hretries
      rw [runMoves_append]
      exact retry_run (hbefore before _ hmoves) hretries

def hostUri (host : Bytes) : ParsedURI :=
  { scheme := some (bytesOf "http"), host := some host, state := .success }

/-- A redirect from one host to another. -/
theorem not_keepsUri :
    ¬∀ (lib : Library) (choice : Choice) (u : ParsedURI) (redirectMax retryMax : Int)
      (hasCallback : Bool) (moves : List Move),
      KeepsUri lib u moves (init lib choice u (newTask lib redirectMax retryMax hasCallback)) := by
  intro hkeeps
  have hother := (hkeeps localLibrary .notFound (hostUri (bytesOf "a")) 1 0 true
    [.redirect .notFound (hostUri (bytesOf "b"))]).original
      [.redirect .notFound (hostUri (bytesOf "b"))] [] rfl
  revert hother
  decide +kernel

/-- The task comes about by moves, and its redirects lead to URIs with `P`. -/
def Moved (lib : Library) (P : ParsedURI → Prop) (task after : ComplexHttpTask) : Prop :=
  ∃ moves, runMoves lib moves task = after ∧ ∀ choice uri, .redirect choice uri ∈ moves → P uri

section Moved

variable {P Q : ParsedURI → Prop} {answers : Answers} {w : World}

theorem moved_of_same (h : SameOriginal task after) : Moved lib P task after := by
  refine ⟨[.other after], ?_, by simp⟩
  have hrun : Move.run lib (.other after) task = after := by
    rw [Move.run, ← h.originalUri, ← h.hasOriginalUri, ← h.isSockaddr]
  exact hrun

theorem Moved.trans {next : ComplexHttpTask} (h : Moved lib P task next) (h' : Moved lib P next after) :
    Moved lib P task after := by
  obtain ⟨moves, hmoves, hP⟩ := h
  obtain ⟨moves', hmoves', hP'⟩ := h'
  refine ⟨moves ++ moves', ?_, ?_⟩
  · rw [runMoves_append, hmoves, hmoves']
  · intro choice uri hmem
    exact (List.mem_append.mp hmem).elim (hP choice uri) (hP' choice uri)

theorem Moved.mono (h : Moved lib P task after) (hPQ : ∀ uri, P uri → Q uri) :
    Moved lib Q task after := by
  obtain ⟨moves, hmoves, hP⟩ := h
  exact ⟨moves, hmoves, fun choice uri hmem => hPQ uri (hP choice uri hmem)⟩

theorem redirectUrl_same (lib : Library) (task : ComplexHttpTask) :
    SameOriginal task (redirectUrl lib task).2 := by
  unfold redirectUrl
  split
  · dsimp only
    split <;> exact ⟨rfl, rfl, rfl⟩
  · exact ⟨rfl, rfl, rfl⟩

theorem needRedirect_same (lib : Library) (task : ComplexHttpTask) :
    SameOriginal task (needRedirect lib task).2 := by
  have hurl := redirectUrl_same lib task
  unfold needRedirect
  split
  · dsimp only
    split_ifs
    · exact hurl.trans ⟨rfl, rfl, rfl⟩
    · exact hurl
    · exact hurl
    · exact ⟨rfl, rfl, rfl⟩
  · exact ⟨rfl, rfl, rfl⟩

theorem redirectUrl_uri (h : (redirectUrl lib task).1 = true) :
    ∃ location, findHeader (bytesOf "Location") task.resp = some location ∧
      (redirectUrl lib task).2.uri = lib.parse location task.uri := by
  unfold redirectUrl at h ⊢
  split at h
  · next hcount =>
    dsimp only at h ⊢
    split at h
    · next c url hfind =>
      exact ⟨c :: url, hfind, by rw [if_pos hcount]⟩
    · cases h
  · cases h

theorem needRedirect_uri (h : (needRedirect lib task).1 = true) :
    ∃ location, findHeader (bytesOf "Location") task.resp = some location ∧
      (needRedirect lib task).2.uri = lib.parse location task.uri := by
  unfold needRedirect at h ⊢
  split at h
  · dsimp only at h ⊢
    split_ifs at h ⊢ with hmoved hget
    · have hurl : (redirectUrl lib task).1 = true := by
        simp only [Bool.and_eq_true] at hget
        exact hget.1.1
      exact redirectUrl_uri hurl
    · exact redirectUrl_uri h
    · exact redirectUrl_uri h
  · cases h

theorem finishOnce_moved (lib : Library) (choice : Choice) (task : ComplexHttpTask)
    (hP : task.state = .success → ∀ location, findHeader (bytesOf "Location") task.resp = some location →
      P (lib.parse location task.uri)) :
    Moved lib P task (finishOnce lib choice task).2 := by
  have hneed := needRedirect_same lib task
  unfold finishOnce
  dsimp only
  split_ifs with hsuccess hredirect hother
  · obtain ⟨location, hfind, huri⟩ := needRedirect_uri hredirect
    refine (moved_of_same hneed).trans
      ⟨[.redirect choice (needRedirect lib task).2.uri], rfl, ?_⟩
    intro choice' uri hmem
    cases List.mem_singleton.mp hmem
    rw [huri]
    exact hP hsuccess location hfind
  · exact moved_of_same (hneed.trans ⟨rfl, rfl, rfl⟩)
  · exact moved_of_same hneed
  · exact moved_of_same ⟨rfl, rfl, rfl⟩

/-- `done` makes the retry of a `Move`. -/
theorem finishAttempt_moved (lib : Library) (answers : Answers) (w : World)
    (hP : w.task.state = .success → ∀ location,
      findHeader (bytesOf "Location") w.task.resp = some location → P (lib.parse location w.task.uri)) :
    Moved lib P w.task (finishAttempt lib answers w).2.task := by
  have hfinish := finishOnce_moved lib answers.redirectChoice w.task hP
  refine hfinish.trans ?_
  unfold finishAttempt
  dsimp only
  generalize (finishOnce lib answers.redirectChoice w.task).2 = task
  by_cases hsuccess : task.state = .success
  · rw [if_pos hsuccess]
    exact moved_of_same ⟨rfl, rfl, rfl⟩
  · rw [if_neg hsuccess]
    by_cases herror : task.state = .sysError
    · rw [if_pos herror]
      by_cases hleft : task.retryTimes < task.retryMax
      · rw [if_pos hleft]
        have hretry : Moved lib P task ((Move.retry answers.retryChoice).run lib task) :=
          ⟨[.retry answers.retryChoice], rfl, by simp⟩
        rw [Move.run, if_pos ⟨herror, hleft⟩] at hretry
        exact hretry
      · rw [if_neg hleft]
        exact moved_of_same ⟨rfl, rfl, rfl⟩
    · rw [if_neg herror]
      exact moved_of_same ⟨rfl, rfl, rfl⟩

theorem switchCallback_same (lib : Library) (w : World) :
    SameOriginal w.task (switchCallback lib w).task := by
  unfold switchCallback
  dsimp only
  split_ifs <;> simp only [callback_task, World.pushFront, World.record] <;> exact ⟨rfl, rfl, rfl⟩

theorem pop_task (w : World) : w.pop.task = w.task := by
  unfold World.pop
  cases w.queue <;> rfl

theorem done_moved (lib : Library) (answers : Answers) (w : World)
    (hP : w.task.routerTask = false → w.task.initState ≠ 0 → w.task.state = .success → ∀ location,
      findHeader (bytesOf "Location") w.task.resp = some location → P (lib.parse location w.task.uri)) :
    Moved lib P w.task (done lib answers w).task := by
  by_cases hrouter : w.task.routerTask = true
  · unfold done
    rw [if_pos hrouter, pop_task]
    exact moved_of_same ⟨rfl, rfl, rfl⟩
  · have hrouter : w.task.routerTask = false := by simpa using hrouter
    have hend : Moved lib P w.task (attemptEnd lib answers w).task := by
      unfold attemptEnd
      split_ifs with hinit
      · exact finishAttempt_moved lib answers w (hP hrouter hinit)
      · exact moved_of_same ⟨rfl, rfl, rfl⟩
    rw [done_eq lib answers hrouter]
    split_ifs
    · rw [pop_task]
      exact hend
    · rw [pop_task]
      exact hend.trans (moved_of_same (switchCallback_same lib _))

/-- The `Location` of the response that answers an attempt. -/
def FollowsLocation (lib : Library) (answers : Answers) (uri : ParsedURI) : Prop :=
  ∃ target error resp location before,
    answers.attempt = .handled target .success error resp ∧
      findHeader (bytesOf "Location") resp = some location ∧ uri = lib.parse location before

theorem done_moved_of_unsent (lib : Library) (answers : Answers) {next : World}
    (hsame : SameOriginal w.task next.task)
    (hunsent : next.task.routerTask = false → next.task.initState ≠ 0 → next.task.state ≠ .success) :
    Moved lib P w.task (done lib answers next).task := by
  refine (moved_of_same hsame).trans (done_moved lib answers next ?_)
  intro hrouter hinit hsuccess
  exact absurd hsuccess (hunsent hrouter hinit)

theorem sent_moved (lib : Library) (answers : Answers) {next : World} {sent : ComplexHttpTask}
    (hsame : SameOriginal w.task sent) (htask : next.task = commDispatch answers.attempt sent) :
    Moved lib (FollowsLocation lib answers) w.task (done lib answers next).task := by
  have hsent : SameOriginal w.task next.task := by
    rw [htask]
    cases answers.attempt <;> exact hsame.trans ⟨rfl, rfl, rfl⟩
  refine (moved_of_same hsent).trans (done_moved lib answers next ?_)
  intro _ _ hsuccess location hfind
  rw [htask] at hsuccess hfind ⊢
  cases hattempt : answers.attempt with
  | notAcquired errno => simp [hattempt, commDispatch] at hsuccess
  | notSent target errno => simp [hattempt, commDispatch] at hsuccess
  | handled target state error resp =>
      rw [hattempt] at hsuccess hfind
      cases state with
      | success => exact ⟨target, error, resp, location, _, hattempt, hfind, rfl⟩
      | error => cases hsuccess
      | stopped => cases hsuccess

theorem dispatch_moved (lib : Library) (answers : Answers) (w : World) :
    Moved lib (FollowsLocation lib answers) w.task (dispatch lib answers w).task := by
  have hcheck : SameOriginal w.task (checkOnce w.task) := by
    unfold checkOnce
    split_ifs <;> exact ⟨rfl, rfl, rfl⟩
  unfold dispatch
  dsimp only
  generalize checkOnce w.task = task at hcheck ⊢
  split_ifs with hinit hobject hroute herror
  · exact sent_moved lib answers hcheck rfl
  · exact done_moved_of_unsent lib answers (hcheck.trans ⟨rfl, rfl, rfl⟩) (fun hrouter => nomatch hrouter)
  · exact done_moved_of_unsent lib answers (hcheck.trans ⟨rfl, rfl, rfl⟩) (fun _ _ => by simp)
  · exact done_moved_of_unsent lib answers (hcheck.trans ⟨rfl, rfl, rfl⟩) (fun _ _ => by simp)
  · exact done_moved_of_unsent lib answers hcheck (fun _ hne => absurd hne hinit)

theorem routerCallback_same (router : RouterTask) (w : World) :
    SameOriginal w.task (routerCallback router w).task := by
  unfold routerCallback
  dsimp only
  split_ifs <;> simp [callback_task, World.pushFront, World.record] <;> exact ⟨rfl, rfl, rfl⟩

theorem routerDispatch_same (answers : Answers) (router : RouterTask) (w : World) :
    SameOriginal w.task (routerDispatch answers router w).task := by
  unfold routerDispatch
  dsimp only
  split_ifs
  · rw [pop_task]
    exact ⟨rfl, rfl, rfl⟩
  · rw [pop_task]
    exact routerCallback_same _ w

theorem step_moved (lib : Library) (answers : Answers) (w : World) :
    Moved lib (FollowsLocation lib answers) w.task (step lib answers w).task := by
  unfold step
  split
  · exact dispatch_moved lib answers w
  · exact moved_of_same (routerDispatch_same answers _ w)
  · unfold dnsDone
    rw [pop_task]
    exact moved_of_same (routerCallback_same _ w)
  · exact moved_of_same ⟨rfl, rfl, rfl⟩
  · exact moved_of_same ⟨rfl, rfl, rfl⟩

theorem run_moved (lib : Library) (answers : Nat → Answers) (w : World) (n : Nat) :
    Moved lib (fun uri => ∃ k < n, FollowsLocation lib (answers k) uri) w.task
      (run lib answers w n).task := by
  induction n with
  | zero => exact moved_of_same ⟨rfl, rfl, rfl⟩
  | succ n ih =>
      refine (ih.mono ?_).trans ((step_moved lib (answers n) _).mono ?_)
      · rintro uri ⟨k, hk, hfollows⟩
        exact ⟨k, Nat.lt_succ_of_lt hk, hfollows⟩
      · intro uri hfollows
        exact ⟨n, Nat.lt_succ_self n, hfollows⟩

/-- An HTTP task keeps its URI while all the `Location`s it gets lead back to it. -/
theorem run_originalUri (lib : Library) (choice : Choice) (url : Bytes) (redirectMax retryMax : Int)
    (hasCallback : Bool) (rest : List Nat) (answers : Nat → Answers) (n : Nat)
    (hback : ∀ k < n, ∀ uri, FollowsLocation lib (answers k) uri → uri.copy = (lib.parse url {}).copy) :
    (run lib answers (start (createHttpTask lib choice url redirectMax retryMax hasCallback) rest)
      n).task.originalUri = (lib.parse url {}).copy := by
  obtain ⟨moves, hmoves, hredirects⟩ := run_moved lib answers
    (start (createHttpTask lib choice url redirectMax retryMax hasCallback) rest) n
  have hfirst : Stores (lib.parse url {})
      (createHttpTask lib choice url redirectMax retryMax hasCallback) := stores_init rfl
  rw [← hmoves]
  refine (hfirst.run_moves ?_).originalUri
  intro choice uri hmem
  obtain ⟨k, hk, hfollows⟩ := hredirects choice uri hmem
  exact hback k hk uri hfollows

end Moved

end WorkflowModel.Client
