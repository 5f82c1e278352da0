import WorkflowModel.Http.Parser

/-!
# The HTTP client task

`WFComplexClientTask` and its subclass `ComplexHttpTask` run one HTTP request: they look up an
upstream, route the host, make an attempt, and follow redirects and retries until the user callback
is called and the task deletes itself. The task lives in a series, a queue from which the next task is
popped whenever one is done. A step of the model dispatches the task that was popped last and runs it
up to the next pop.

What the task asks of other components is an answer given to the step: the upstream that
`UpstreamManager::choose` finds, the route, the DNS result and the outcome of an attempt. The URL
parser and the table of default ports do not change during a run. A response is the parser of
`http_parser.c` that read it. The series is not cancelled, memory is not exhausted, and the user
callback leaves the task alone.
-/

namespace WorkflowModel.Client

open WorkflowModel

inductive UriState where
  | init
  | success
  | invalid
  | error
  deriving DecidableEq, Repr

structure ParsedURI where
  scheme : Option Bytes := none
  userinfo : Option Bytes := none
  host : Option Bytes := none
  port : Option Bytes := none
  path : Option Bytes := none
  query : Option Bytes := none
  fragment : Option Bytes := none
  state : UriState := .init
  error : Int := 0
  deriving DecidableEq, Repr

/-- The copy of a URI: one that did not parse has only its state and error copied. -/
def ParsedURI.copy (uri : ParsedURI) : ParsedURI :=
  if uri.state = .success then uri else { state := uri.state, error := uri.error }

/-- The `WFT_STATE_*` values. -/
inductive TaskState where
  | undefined
  | success
  | sysError
  | aborted
  | dnsError
  | taskError
  deriving DecidableEq, Repr

def errUriParseFailed : Int := 1001
def errUriPortInvalid : Int := 1003
def errUpstreamUnavailable : Int := 1004
def errHttpBadRedirectHeader : Int := 2001
def errAgain : Int := 11
def errInval : Int := 22

inductive UpstreamState where
  | success
  | notFound
  | allDown
  deriving DecidableEq, Repr

structure UpstreamResult where
  cookie : Option Nat := none
  state : UpstreamState := .notFound
  deriving DecidableEq, Repr

structure RouteResult where
  cookie : Option Nat := none
  requestObject : Option Nat := none
  deriving DecidableEq, Repr

/-- The fields of `CommRequest`, `WFComplexClientTask` and `ComplexHttpTask` that decide about the
course of the task. -/
structure ComplexHttpTask where
  state : TaskState
  error : Int
  target : Option Nat
  hasCallback : Bool
  method : Option Bytes
  resp : Http.HttpParser
  uri : ParsedURI
  originalUri : ParsedURI
  retryMax : Int
  isSockaddr : Bool
  routerTask : Bool
  routeResult : RouteResult
  upstreamResult : UpstreamResult
  retryTimes : Int
  initState : Nat
  isRetry : Bool
  hasOriginalUri : Bool
  redirect : Bool
  redirectMax : Int
  redirectCount : Int

/-- `URIParser::parse` and `WFGlobal::get_default_port`, and the memory that a response is built in. -/
structure Library where
  parse : Bytes → ParsedURI → ParsedURI
  defaultPort : Bytes → Option Bytes
  memory : Http.HttpParser

/-- `UpstreamManager::choose`. -/
inductive Choice where
  | failed (errno : Int)
  | notFound
  | allDown
  | found (cookie : Nat) (host port : Option Bytes)
  deriving DecidableEq, Repr

/-- `RouteManager::get`. -/
inductive Routing where
  | failed (errno : Int)
  | noObject
  | routed (cookie object : Nat)
  deriving DecidableEq, Repr

/-- `DNSRoutine::run`: an error of the system or of the resolver, or a list of addresses, for which
the route manager is asked. -/
inductive Resolution where
  | systemError (errno : Int)
  | dnsError (code : Int)
  | noAddress
  | addresses (routing : Routing)
  deriving DecidableEq, Repr

inductive DnsEnd where
  | resolved (resolution : Resolution)
  | failed (state : TaskState) (error : Int)
  deriving DecidableEq, Repr

/-- The states that `CommSession::handle` is called with on the client side. -/
inductive SessionState where
  | success
  | error
  | stopped
  deriving DecidableEq, Repr

/-- What comes of `CommScheduler::request`: `acquire` returned NULL, the communicator refused the
request after a target had been acquired, or the session was handled. -/
inductive Attempt where
  | notAcquired (errno : Int)
  | notSent (target : Nat) (errno : Int)
  | handled (target : Nat) (state : SessionState) (error : Int) (resp : Http.HttpParser)

/-- The answers during one step. The upstream may be asked twice in a step, for a redirect and then
for a retry. -/
structure Answers where
  redirectChoice : Choice
  retryChoice : Choice
  cached : Option Routing
  literal : Option Resolution
  dns : DnsEnd
  attempt : Attempt

structure RouterTask where
  state : TaskState := .undefined
  error : Int := 0
  routeResult : RouteResult := {}
  insertDns : Bool := true
  deriving DecidableEq, Repr

/-- The tasks of the series: the client task, the tasks it inserts, and those of the user. -/
inductive Item where
  | origin
  | router (task : RouterTask)
  | dns (router : RouterTask)
  | other (id : Nat)
  deriving DecidableEq, Repr

inductive Event where
  | attempt
  | callback (state : TaskState) (error : Int)
  | deleted
  | notifyAvailable (route upstream : Option Nat)
  | notifyUnavailable (route upstream : Option Nat)
  deriving DecidableEq, Repr

/-- `current` is the task that was popped last. It is `none` when the series has ended. -/
structure World where
  task : ComplexHttpTask
  current : Option Item
  queue : List Item
  log : List Event

def World.pushFront (item : Item) (w : World) : World := { w with queue := item :: w.queue }

def World.pop (w : World) : World :=
  match w.queue with
  | [] => { w with current := none }
  | item :: rest => { w with current := some item, queue := rest }

def World.record (event : Event) (w : World) : World := { w with log := w.log ++ [event] }

/-- `UpstreamManager::choose` as the task sees it: host and port of the URI are replaced by those of
the chosen server. -/
def choose (choice : Choice) (uri : ParsedURI) : Except Int (ParsedURI × UpstreamResult) :=
  if uri.state ≠ .success ∨ uri.host = none then
    .ok (uri, {})
  else
    match choice with
    | .failed errno => .error errno
    | .notFound => .ok (uri, {})
    | .allDown => .ok (uri, { state := .allDown })
    | .found cookie host port =>
        .ok ({ uri with host := host, port := port.or uri.port },
          { cookie := some cookie, state := .success })

/-- The port as `set_port` reads it, 0 when there is none. -/
def ParsedURI.portNumber (uri : ParsedURI) : Int :=
  match uri.port with
  | some text => if text = [] then 0 else atoi text
  | none => 0

/-- `set_port`: an explicit port has to lie in range, a missing or zero one is filled in. -/
def setPort (lib : Library) (task : ComplexHttpTask) : Bool × ComplexHttpTask :=
  if task.uri.portNumber < 0 ∨ 65535 < task.uri.portNumber then
    (false, { task with state := .taskError, error := errUriPortInvalid })
  else if task.uri.portNumber = 0 then
    match task.uri.scheme.bind lib.defaultPort with
    | some text => (true, { task with uri := { task.uri with port := some text } })
    | none => (true, task)
  else
    (true, task)

/-- `ComplexHttpTask::init_success`, which writes the request and returns true. -/
def initSuccess : Bool := true

/-- `has_original_uri_` is true from the constructor on, so every call stores the URI. -/
def keepOriginalUri (task : ComplexHttpTask) : ComplexHttpTask :=
  if task.hasOriginalUri then
    { task with originalUri := task.uri.copy, hasOriginalUri := true }
  else
    task

/-- The part of `init_with_uri` for a URI with a good port. -/
def chooseUpstream (choice : Choice) (task : ComplexHttpTask) : ComplexHttpTask :=
  match choose choice task.uri with
  | .error errno => { task with upstreamResult := {}, state := .sysError, error := errno }
  | .ok (uri, result) =>
      if result.state = .allDown then
        { task with
          uri := uri
          upstreamResult := result
          state := .taskError
          error := errUpstreamUnavailable }
      else
        { task with
          uri := uri
          upstreamResult := result
          initState := if initSuccess then 1 else 0 }

def initWithUri (lib : Library) (choice : Choice) (task : ComplexHttpTask) : ComplexHttpTask :=
  let task := { keepOriginalUri task with routeResult := {} }
  if task.uri.state = .success then
    let ported := setPort lib task
    if ported.1 then
      chooseUpstream choice ported.2
    else
      -- the URI itself is well formed, so the error that `set_port` stored is overwritten
      { ported.2 with state := .taskError, error := errUriParseFailed }
  else if task.uri.state = .error then
    { task with state := .sysError, error := task.uri.error }
  else
    { task with state := .taskError, error := errUriParseFailed }

/-- `init(uri)`, where `uri` is what the assignment leaves in `uri_`: a copy of another URI, the URI that
was moved, or `uri_` as it was. -/
def init (lib : Library) (choice : Choice) (uri : ParsedURI) (task : ComplexHttpTask) :
    ComplexHttpTask :=
  initWithUri lib choice { task with isSockaddr := false, initState := 0, uri := uri }

def setRedirect (lib : Library) (choice : Choice) (uri : ParsedURI) (task : ComplexHttpTask) :
    ComplexHttpTask :=
  { init lib choice uri { task with redirect := true } with retryTimes := 0 }

def setRetry (lib : Library) (choice : Choice) (uri : ParsedURI) (task : ComplexHttpTask) :
    ComplexHttpTask :=
  { init lib choice uri { task with redirect := true } with retryTimes := task.retryTimes + 1 }

/-- `HttpHeaderCursor::find`: the value of the first header with this name. -/
def findHeader (name : Bytes) (resp : Http.HttpParser) : Option Bytes :=
  (resp.headerList.find? fun line =>
    line.nameLen == (name.length : Int) && strcaseEq line.name name).map Http.HeaderLine.value

def redirectUrl (lib : Library) (task : ComplexHttpTask) : Bool × ComplexHttpTask :=
  if task.redirectCount < task.redirectMax then
    let task := { task with redirectCount := task.redirectCount + 1 }
    match findHeader (bytesOf "Location") task.resp with
    | some (c :: url) => (true, { task with uri := lib.parse (c :: url) task.uri })
    | _ => (false, { task with state := .taskError, error := errHttpBadRedirectHeader })
  else
    (false, task)

/-- `301`, `302` and `303` turn the request into a GET unless it is a GET or a HEAD. -/
def needRedirect (lib : Library) (task : ComplexHttpTask) : Bool × ComplexHttpTask :=
  match task.resp.code, task.method with
  | some code, some method =>
      let status := atoi code
      if status = 301 ∨ status = 302 ∨ status = 303 then
        let result := redirectUrl lib task
        if result.1 && !strcaseEq method (bytesOf "GET") && !strcaseEq method (bytesOf "HEAD") then
          (true, { result.2 with method := some (bytesOf "GET") })
        else
          result
      else if status = 307 ∨ status = 308 then
        redirectUrl lib task
      else
        (false, task)
  | _, _ => (false, task)

/-- `ComplexHttpTask::finish_once`, with the value it returns. -/
def finishOnce (lib : Library) (choice : Choice) (task : ComplexHttpTask) : Bool × ComplexHttpTask :=
  if task.state = .success then
    let result := needRedirect lib task
    if result.1 then
      (true, setRedirect lib choice result.2.uri result.2)
    else if result.2.state ≠ .success then
      (true, { result.2 with retryTimes := result.2.retryMax })
    else
      (true, result.2)
  else
    (true, { task with resp := { task.resp with complete := true }, redirectCount := 0 })

def callback (w : World) : World :=
  if w.task.hasCallback then w.record (.callback w.task.state w.task.error) else w

def switchCallback (lib : Library) (w : World) : World :=
  let w := if !w.task.redirect then callback w else w
  if w.task.redirect then
    World.pushFront .origin { w with
      task := { w.task with
        initState := if initSuccess then 1 else 0
        redirect := false
        resp := Http.freshParser true false lib.memory
        target := none
        state := .undefined
        error := 0 } }
  else
    w.record .deleted

def routerCallback (router : RouterTask) (w : World) : World :=
  let task :=
    if router.state = .success then { w.task with routeResult := router.routeResult }
    else { w.task with state := router.state, error := router.error }
  let w := { w with task := task }
  if task.routeResult.requestObject.isSome then
    w.pushFront .origin
  else
    let w := callback (w.record (.notifyUnavailable none task.upstreamResult.cookie))
    if w.task.redirect then
      World.pushFront .origin { w with
        task := { w.task with
          initState := if initSuccess then 1 else 0
          redirect := false
          state := .undefined
          error := 0 } }
    else
      w.record .deleted

/-- The part of `done` between the router check and the callback. The flag says that the children
have another message to send, which makes `done` return the task itself. -/
def finishAttempt (lib : Library) (answers : Answers) (w : World) : Bool × World :=
  let result := finishOnce lib answers.redirectChoice w.task
  let task := result.2
  if task.state = .success then
    let w := { w with task := { task with upstreamResult := {} } }
    (!result.1, w.record (.notifyAvailable task.routeResult.cookie task.upstreamResult.cookie))
  else if task.state = .sysError then
    let w := World.record (.notifyUnavailable task.routeResult.cookie task.upstreamResult.cookie)
      { w with task := task }
    if task.retryTimes < task.retryMax then
      let next :=
        if task.isSockaddr then { task with redirect := true, retryTimes := task.retryTimes + 1 }
        else setRetry lib answers.retryChoice task.originalUri task
      (false, { w with task := { next with isRetry := true } })
    else
      (false, w)
  else
    (false, { w with task := task })

/-- `WFComplexClientTask::done`. The timer that would switch a task without a target to its callback
is commented out in the source. -/
def done (lib : Library) (answers : Answers) (w : World) : World :=
  if w.task.routerTask then
    World.pop { w with task := { w.task with routerTask := false } }
  else
    let result := if w.task.initState ≠ 0 then finishAttempt lib answers w else (false, w)
    if result.1 then
      { result.2 with current := some .origin }
    else if result.2.task.target = none then
      result.2.pop
    else
      (switchCallback lib result.2).pop

def TaskState.ofSession : SessionState → TaskState
  | .success => .success
  | .error => .sysError
  | .stopped => .aborted

/-- `CommRequest::dispatch` up to the call of `subtask_done`. -/
def commDispatch (attempt : Attempt) (task : ComplexHttpTask) : ComplexHttpTask :=
  match attempt with
  | .notAcquired errno => { task with target := none, state := .sysError, error := errno }
  | .notSent target errno => { task with target := some target, state := .sysError, error := errno }
  | .handled target state error resp =>
      { task with target := some target, state := .ofSession state, error := error, resp := resp }

/-- `WFComplexClientTask::check_request`, which `ComplexHttpTask` does not override. -/
def checkRequest : Bool := true

def checkOnce (task : ComplexHttpTask) : ComplexHttpTask :=
  if task.initState = 1 then { task with initState := if checkRequest then 2 else 0 } else task

def dispatch (lib : Library) (answers : Answers) (w : World) : World :=
  let task := checkOnce w.task
  let w := { w with task := task }
  if task.initState ≠ 0 then
    if task.routeResult.requestObject.isSome then
      done lib answers (World.record .attempt { w with task := commDispatch answers.attempt task })
    else if task.isSockaddr ∨ task.uri.state = .success then
      done lib answers (World.pushFront (.router {})
        { w with task := { task with routerTask := true, isRetry := false } })
    else if task.uri.state = .error then
      done lib answers { w with task := { task with state := .sysError, error := task.uri.error } }
    else
      done lib answers { w with task := { task with state := .taskError, error := errUriParseFailed } }
  else
    done lib answers w

def RouterTask.route (routing : Routing) (router : RouterTask) : RouterTask :=
  match routing with
  | .failed errno => { router with state := .sysError, error := errno }
  | .noObject => { router with state := .sysError, error := errAgain, routeResult := {} }
  | .routed cookie object =>
      { router with state := .success, routeResult := ⟨some cookie, some object⟩ }

def RouterTask.dnsCallbackInternal (resolution : Resolution) (router : RouterTask) : RouterTask :=
  match resolution with
  | .systemError errno => { router with state := .sysError, error := errno }
  | .dnsError code => { router with state := .dnsError, error := code }
  | .noAddress => { router with state := .sysError, error := errInval }
  | .addresses routing => router.route routing

/-- `WFRouterTask::dispatch` and `done`: a cached or a literal address is routed at once, any other
host goes through a DNS task. -/
def routerDispatch (answers : Answers) (router : RouterTask) (w : World) : World :=
  let router := { router with insertDns := true }
  let router := match answers.cached with
    | some routing => { router.route routing with insertDns := false }
    | none => router
  let router := match router.insertDns, answers.literal with
    | true, some resolution =>
        { router.dnsCallbackInternal resolution with insertDns := false }
    | _, _ => router
  if router.insertDns then
    (w.pushFront (.dns router)).pop
  else
    (routerCallback router w).pop

/-- `dns_callback`, called by the DNS task when it is done. -/
def dnsDone (answers : Answers) (router : RouterTask) (w : World) : World :=
  let router := match answers.dns with
    | .resolved resolution => router.dnsCallbackInternal resolution
    | .failed state error => { router with state := state, error := error }
  (routerCallback router w).pop

/-- One step: dispatch the task that was popped last. The series has gone on when that is a task of
the user, or when there is none. -/
def step (lib : Library) (answers : Answers) (w : World) : World :=
  match w.current with
  | some .origin => dispatch lib answers w
  | some (.router router) => routerDispatch answers router w
  | some (.dns router) => dnsDone answers router w
  | some (.other _) => w
  | none => w

/-- The constructors of `ComplexHttpTask` and its bases. -/
def newTask (lib : Library) (redirectMax retryMax : Int) (hasCallback : Bool) : ComplexHttpTask where
  state := .undefined
  error := 0
  target := none
  hasCallback := hasCallback
  method := some (bytesOf "GET")
  resp := Http.freshParser true false lib.memory
  uri := {}
  originalUri := {}
  retryMax := retryMax
  isSockaddr := false
  routerTask := false
  routeResult := {}
  upstreamResult := {}
  retryTimes := 0
  initState := 0
  isRetry := false
  hasOriginalUri := true
  redirect := false
  redirectMax := redirectMax
  redirectCount := 0

def createHttpTask (lib : Library) (choice : Choice) (url : Bytes) (redirectMax retryMax : Int)
    (hasCallback : Bool) : ComplexHttpTask :=
  init lib choice (lib.parse url {}) (newTask lib redirectMax retryMax hasCallback)

/-- The task starts as the first of a series, with the tasks `rest` behind it. -/
def start (task : ComplexHttpTask) (rest : List Nat) : World :=
  { task := task, current := some .origin, queue := rest.map .other, log := [] }

def run (lib : Library) (answers : Nat → Answers) (w : World) : Nat → World
  | 0 => w
  | n + 1 => step lib (answers n) (run lib answers w n)

end WorkflowModel.Client
