import WorkflowModel.Client.Task
import WorkflowModel.Manager.WFGlobal
import WorkflowModel.Util.URIParser
import WorkflowModel.Proof.HttpRoundTrip

/-!
# The port of a request

`set_port` reads the port of the URI with `atoi`, looks whether it is in range, and fills in the default
port of the scheme for a missing or zero one. The numeral may be as long as it likes, and `atoi` gives its
value modulo `2 ^ 32`, so a numeral above 65535 may come out in range. Where it does not, `init_with_uri`
overwrites the error that `set_port` has stored.
-/

namespace WorkflowModel.Client

open WorkflowModel Http Manager Util

theorem numeralOf_of_digits {s : Bytes} (hdigits : ∀ c ∈ s, isDigit c = true) :
    numeralOf s = digitsValue 10 s := by
  rw [numeralOf, List.takeWhile_eq_self_iff.mpr hdigits]

theorem atoi_of_digits {s : Bytes} (hdigits : ∀ c ∈ s, isDigit c = true) :
    atoi s = intOfLong (min longMax (digitsValue 10 s)) := by
  cases s with
  | nil => decide
  | cons c rest =>
      have hhead : (c :: rest).head?.any isDigit = true := hdigits c List.mem_cons_self
      rw [atoi, strtol_of_digit hhead, numeralOf_of_digits hdigits]

/-- The numeral is read modulo `2 ^ 32`, and one that does not fit a `long` is read as `-1`. -/
theorem atoi_inRange_iff {s : Bytes} (hdigits : ∀ c ∈ s, isDigit c = true) :
    (0 ≤ atoi s ∧ atoi s ≤ 65535) ↔
      digitsValue 10 s < 2 ^ 63 ∧ digitsValue 10 s % 2 ^ 32 ≤ 65535 := by
  rw [atoi_of_digits hdigits, intOfLong, longMax]
  generalize digitsValue 10 s = value
  by_cases hfits : value < 2 ^ 63
  · have hmin : min (2 ^ 63 - 1 : Int) value = value := by
      apply min_eq_right
      omega
    rw [hmin, Int.bmod_def]
    split_ifs <;> omega
  · have hmin : min (2 ^ 63 - 1 : Int) value = 2 ^ 63 - 1 := by
      apply min_eq_left
      omega
    have hminus : Int.bmod (2 ^ 63 - 1) (2 ^ 32) = -1 := by decide
    rw [hmin, hminus]
    omega

theorem atoi_of_digits_of_le {s : Bytes} (hdigits : ∀ c ∈ s, isDigit c = true)
    (hle : digitsValue 10 s ≤ 65535) : atoi s = digitsValue 10 s := by
  rw [atoi_of_digits hdigits, longMax]
  have hmin : min (2 ^ 63 - 1 : Int) (digitsValue 10 s) = digitsValue 10 s := by
    apply min_eq_right
    omega
  rw [hmin]
  apply Int.bmod_eq_of_le <;> omega

def IsPortText (text : Bytes) : Prop :=
  (∀ c ∈ text, isDigit c = true) ∧ digitsValue 10 text ≤ 65535

instance : DecidablePred IsPortText :=
  fun text =>
    inferInstanceAs (Decidable ((∀ c ∈ text, isDigit c = true) ∧ digitsValue 10 text ≤ 65535))

theorem isPortText_decimal (port : UInt16) : IsPortText (decimal port.toNat) := by
  obtain ⟨hvalue, -, hdigits⟩ := decimalDigits_spec (port.toNat + 1) port.toNat (Nat.lt_succ_self _)
  refine ⟨hdigits, ?_⟩
  have hport := port.toNat_lt
  rw [decimal, hvalue]
  omega

theorem isPortText_getDefaultPort {ports : SchemePorts} {scheme text : Bytes}
    (h : ports.getDefaultPort scheme = some text) : IsPortText text := by
  have htable : ∀ entry ∈ staticSchemePort, IsPortText entry.2 := by decide +kernel
  rcases Option.or_eq_some_iff.mp h with hstatic | ⟨-, huser⟩
  · obtain ⟨before, after, heq, -⟩ := List.lookup_eq_some_iff.mp hstatic
    apply htable (scheme, text)
    rw [heq]
    exact List.mem_append_right _ List.mem_cons_self
  · obtain ⟨port, rfl⟩ := ports.written scheme text huser
    exact isPortText_decimal port

/-- `route` passes `uri_.port ? atoi(uri_.port) : 0` to the router task. -/
def ComplexHttpTask.routePort (task : ComplexHttpTask) : Int :=
  match task.uri.port with
  | some text => atoi text
  | none => 0

def Library.withPorts (lib : Library) (ports : SchemePorts) : Library :=
  { lib with defaultPort := ports.getDefaultPort }

/-- The URI as `set_port` leaves it. -/
def ported (lib : Library) (uri : ParsedURI) : ParsedURI :=
  if uri.portNumber = 0 then { uri with port := (uri.scheme.bind lib.defaultPort).or uri.port } else uri

section Init

variable (lib : Library) (task : ComplexHttpTask) {uri : ParsedURI} {port : Bytes}

theorem portNumber_eq_atoi (hport : uri.port = some port) : uri.portNumber = atoi port := by
  simp only [ParsedURI.portNumber, hport]
  split_ifs with hempty
  · rw [hempty]
    decide
  · rfl

theorem setPort_of_inRange (hrange : 0 ≤ task.uri.portNumber ∧ task.uri.portNumber ≤ 65535) :
    setPort lib task = (true, { task with uri := ported lib task.uri }) := by
  rw [setPort, if_neg (by omega), ported]
  split_ifs
  · cases task.uri.scheme.bind lib.defaultPort <;> rfl
  · rfl

theorem setPort_of_not_inRange
    (hrange : ¬ (0 ≤ task.uri.portNumber ∧ task.uri.portNumber ≤ 65535)) :
    setPort lib task = (false, { task with state := .taskError, error := errUriPortInvalid }) := by
  rw [setPort, if_pos (by omega)]

theorem chooseUpstream_notFound :
    chooseUpstream .notFound task = { task with upstreamResult := {}, initState := 1 } := by
  have hchoose : choose .notFound task.uri = .ok (task.uri, {}) := by
    unfold choose
    split_ifs <;> rfl
  rw [chooseUpstream, hchoose]
  rfl

theorem exists_init_eq (choice : Choice) (hstate : uri.state = .success) :
    ∃ kept : ComplexHttpTask, kept.uri = uri ∧ kept.initState = 0 ∧
      init lib choice uri task =
        if (setPort lib kept).1 then chooseUpstream choice (setPort lib kept).2
        else { (setPort lib kept).2 with state := .taskError, error := errUriParseFailed } := by
  unfold init initWithUri
  generalize hkept : { keepOriginalUri { task with isSockaddr := false, initState := 0, uri := uri } with
    routeResult := {} } = kept
  have huri : kept.uri = uri ∧ kept.initState = 0 := by
    rw [← hkept]
    unfold keepOriginalUri
    split_ifs <;> exact ⟨rfl, rfl⟩
  refine ⟨kept, huri.1, huri.2, ?_⟩
  dsimp only
  rw [if_pos (by rw [huri.1]; exact hstate)]

theorem init_of_inRange (hstate : uri.state = .success)
    (hrange : 0 ≤ uri.portNumber ∧ uri.portNumber ≤ 65535) :
    (init lib .notFound uri task).initState = 1 ∧
      (init lib .notFound uri task).uri = ported lib uri := by
  obtain ⟨kept, rfl, -, heq⟩ := exists_init_eq lib task .notFound hstate
  rw [heq, setPort_of_inRange lib kept hrange, if_pos rfl, chooseUpstream_notFound]
  exact ⟨rfl, rfl⟩

theorem init_of_not_inRange (choice : Choice) (hstate : uri.state = .success)
    (hrange : ¬ (0 ≤ uri.portNumber ∧ uri.portNumber ≤ 65535)) :
    (init lib choice uri task).initState = 0 ∧
      (init lib choice uri task).error = errUriParseFailed := by
  obtain ⟨kept, rfl, hzero, heq⟩ := exists_init_eq lib task choice hstate
  rw [heq, setPort_of_not_inRange lib kept hrange, if_neg Bool.false_ne_true]
  exact ⟨hzero, rfl⟩

theorem init_accepts_iff (hstate : uri.state = .success) (hport : uri.port = some port)
    (hdigits : ∀ c ∈ port, isDigit c = true) :
    (init lib .notFound uri task).initState = 1 ↔
      digitsValue 10 port < 2 ^ 63 ∧ digitsValue 10 port % 2 ^ 32 ≤ 65535 := by
  rw [← atoi_inRange_iff hdigits, ← portNumber_eq_atoi hport]
  by_cases hrange : 0 ≤ uri.portNumber ∧ uri.portNumber ≤ 65535
  · exact iff_of_true (init_of_inRange lib task hstate hrange).1 hrange
  · refine iff_of_false ?_ hrange
    rw [(init_of_not_inRange lib task .notFound hstate hrange).1]
    exact Nat.zero_ne_one

end Init

/-- The port that a request goes to when the URI has one with this value. -/
def expectedPort (ports : SchemePorts) (uri : ParsedURI) (value : Nat) : Nat :=
  if value = 0 then ((uri.scheme.bind ports.getDefaultPort).map (digitsValue 10)).getD 0 else value

/-- The task is rejected for a port above 65535 only, with the error meant for it, and is otherwise routed
with its port. `init_state_` is 0 behind an `init` that has rejected the task. -/
structure PortValidated (ports : SchemePorts) (uri : ParsedURI) (value : Nat)
    (after : ComplexHttpTask) : Prop where
  rejected_iff : after.initState = 0 ↔ 65535 < value
  rejected : after.initState = 0 → after.state = .taskError ∧ after.error = errUriPortInvalid
  routed : after.initState ≠ 0 → after.routePort = expectedPort ports uri value

section Validated

variable (lib : Library) (ports : SchemePorts) {uri : ParsedURI} {port : Bytes}

/-- Routing gets the number that is expected, be it the port of the URI or a default port. -/
theorem atoi_ported (hport : uri.port = some port) (hdigits : ∀ c ∈ port, isDigit c = true)
    (hle : digitsValue 10 port ≤ 65535) :
    ∃ text, (ported (lib.withPorts ports) uri).port = some text ∧
      atoi text = expectedPort ports uri (digitsValue 10 port) := by
  have hvalue := atoi_of_digits_of_le hdigits hle
  have hnumber : uri.portNumber = digitsValue 10 port := by rw [portNumber_eq_atoi hport, hvalue]
  by_cases hzero : digitsValue 10 port = 0
  · rw [ported, if_pos (by rw [hnumber, hzero]; rfl), expectedPort, if_pos hzero]
    show ∃ text, (uri.scheme.bind ports.getDefaultPort).or uri.port = some text ∧ _
    cases hdefault : uri.scheme.bind ports.getDefaultPort with
    | none =>
        refine ⟨port, hport, ?_⟩
        rw [hvalue, hzero]
        rfl
    | some text =>
        obtain ⟨scheme, -, htext⟩ := Option.bind_eq_some_iff.mp hdefault
        have hport := isPortText_getDefaultPort htext
        exact ⟨text, rfl, atoi_of_digits_of_le hport.1 hport.2⟩
  · have hnonzero : uri.portNumber ≠ 0 := by
      rw [hnumber]
      exact_mod_cast hzero
    rw [ported, if_neg hnonzero, expectedPort, if_neg hzero]
    exact ⟨port, hport, hvalue⟩

/-- A URI with a port of digits is handled as it should be exactly when the port is at most 65535. -/
theorem portValidated_iff (task : ComplexHttpTask) (hstate : uri.state = .success)
    (hport : uri.port = some port) (hdigits : ∀ c ∈ port, isDigit c = true) :
    PortValidated ports uri (digitsValue 10 port) (init (lib.withPorts ports) .notFound uri task) ↔
      digitsValue 10 port ≤ 65535 := by
  constructor
  · intro h
    by_contra hlarge
    have hzero := h.rejected_iff.mpr (by omega)
    by_cases hrange : 0 ≤ uri.portNumber ∧ uri.portNumber ≤ 65535
    · -- the numeral has come out of `atoi` in range
      rw [(init_of_inRange _ task hstate hrange).1] at hzero
      exact Nat.one_ne_zero hzero
    · have herror := (h.rejected hzero).2
      rw [(init_of_not_inRange _ task .notFound hstate hrange).2] at herror
      exact absurd herror (by decide)
  · intro hle
    have hnumber : uri.portNumber = digitsValue 10 port := by
      rw [portNumber_eq_atoi hport, atoi_of_digits_of_le hdigits hle]
    obtain ⟨haccepted, huri⟩ :=
      init_of_inRange (lib.withPorts ports) task hstate (by rw [hnumber]; omega)
    have hne : (init (lib.withPorts ports) .notFound uri task).initState ≠ 0 := by
      rw [haccepted]
      exact Nat.one_ne_zero
    refine ⟨iff_of_false hne (by omega), fun hzero => absurd hzero hne, fun _ => ?_⟩
    obtain ⟨text, htext, hvalue⟩ := atoi_ported lib ports hport hdigits hle
    rw [ComplexHttpTask.routePort, huri, htext]
    exact hvalue

end Validated

/-- The task's copy of what `URIParser::parse` makes of a URL. -/
def parsedUrl (url : Bytes) : ParsedURI :=
  let uri := (URIParser.parse (fun _ => true) url URIParser.ParsedURI.init).2
  { scheme := uri.scheme
    userinfo := uri.userinfo
    host := uri.host
    port := uri.port
    path := uri.path
    query := uri.query
    fragment := uri.fragment
    state :=
      match uri.state with
      | .init => .init
      | .success => .success
      | .invalid => .invalid
      | .error => .error
    error := uri.error }

def urlLibrary : Library where
  parse url _ := parsedUrl url
  defaultPort _ := none
  memory := zeroedParser

theorem portValidated_https :
    PortValidated .empty (parsedUrl (bytesOf "https://h:000/")) 0
      (init (urlLibrary.withPorts .empty) .notFound (parsedUrl (bytesOf "https://h:000/"))
        (newTask urlLibrary 0 0 true)) := by
  have hstate : (parsedUrl (bytesOf "https://h:000/")).state = .success := by decide +kernel
  have hport : (parsedUrl (bytesOf "https://h:000/")).port = some (bytesOf "000") := by decide +kernel
  apply (portValidated_iff urlLibrary .empty (newTask urlLibrary 0 0 true) hstate hport (by decide +kernel)).mpr
  decide +kernel

/-- The first port is rejected with the wrong error. The second one is `2 ^ 32 + 80`, and the request goes
to port 80. -/
theorem not_portValidated_large :
    ¬ PortValidated .empty (parsedUrl (bytesOf "http://h:65536/")) 65536
      (init (urlLibrary.withPorts .empty) .notFound (parsedUrl (bytesOf "http://h:65536/"))
        (newTask urlLibrary 0 0 true)) ∧
    ¬ PortValidated .empty (parsedUrl (bytesOf "http://h:4294967376/")) 4294967376
      (init (urlLibrary.withPorts .empty) .notFound (parsedUrl (bytesOf "http://h:4294967376/"))
        (newTask urlLibrary 0 0 true)) := by
  constructor
  · intro h
    have herror := (h.rejected (by decide +kernel)).2
    revert herror
    decide +kernel
  · intro h
    have hstate : (parsedUrl (bytesOf "http://h:4294967376/")).state = .success := by decide +kernel
    have hport : (parsedUrl (bytesOf "http://h:4294967376/")).port = some (bytesOf "4294967376") := by
      decide +kernel
    have haccepted := (init_accepts_iff (urlLibrary.withPorts .empty) (newTask urlLibrary 0 0 true) hstate hport
      (by decide +kernel)).mpr (by decide +kernel)
    rw [h.rejected_iff.mpr (by decide)] at haccepted
    exact absurd haccepted (by decide)

end WorkflowModel.Client
