import WorkflowModel.Kernel.Communicator
import Mathlib.Data.List.Perm.Basic

/-!
# Who has a part in a connection entry

An entry is known to many: the poller or a result that is under way, handler threads that are somewhere in
their work on it, and requesting threads that use it. Each of them has one kind of part in it, and the state
of the entry, its `ref`, its mutex and the idle list say how many there are of each kind. At most one
has the part of the connection itself, from the registration of the entry to the section that ends it. An
entry owes its session an answer as long as that part, or that of a complete reply, will make the call of
`handle`.
-/

namespace WorkflowModel.Kernel.Communicator

/-- The kinds of part that somebody may have in an entry: the connection before it is registered for reading
(`opening`, `adding`) and afterwards (`reading`), a thread that releases the entry at once (`direct`), a
handler thread that will drop a reference and has the mutex of the entry (`parting`) or not (`dropping`), one
that releases the entry (`freeing`), a complete reply (`success`), a requesting thread before (`taken`) and
after (`leaving`) its message, and a handler thread that has left the entry to the reply and still has to
unlock its mutex (`dead`). -/
inductive Kind where
  | opening
  | adding
  | reading
  | direct
  | parting
  | dropping
  | freeing
  | success
  | taken
  | leaving
  | dead
  deriving DecidableEq, Repr

theorem forall_kind {p : Kind → Prop} : (∀ k, p k) ↔ p .opening ∧ p .adding ∧ p .reading ∧ p .direct
    ∧ p .parting ∧ p .dropping ∧ p .freeing ∧ p .success ∧ p .taken ∧ p .leaving ∧ p .dead := by
  constructor
  · intro h
    exact ⟨h _, h _, h _, h _, h _, h _, h _, h _, h _, h _, h _⟩
  · rintro ⟨h1, h2, h3, h4, h5, h6, h7, h8, h9, h10, h11⟩ k
    cases k <;> assumption

/-- One part of kind `k` becomes one of kind `k'`. -/
def Shift (c c' : Kind → Nat) (k k' : Option Kind) : Prop :=
  ∀ i, c' i + (if k = some i then 1 else 0) = c i + (if k' = some i then 1 else 0)

theorem Shift.of_eq {c c' : Kind → Nat} {k : Option Kind} (h : Shift c c' k k) : c' = c := by
  funext i
  have := h i
  omega

/-- An entry with the numbers of parts in it, whether it is on the idle list, how often it was added to the
poller for reading, and the values of `ref` at which it was released. -/
@[ext]
structure Standing where
  entry : ConnEntry
  count : Kind → Nat
  listed : Bool
  adds : Nat
  frees : List Int

namespace Standing

/-- The end of the connection, or the reply that is complete, will be told to the session of the entry. -/
def Owes (a : Standing) : Prop :=
  (a.count .opening + a.count .adding + a.count .reading = 1
    ∧ (a.entry.state = .connecting ∨ a.entry.state = .receiving ∨ a.entry.state = .error))
  ∨ a.count .success = 1

instance (a : Standing) : Decidable a.Owes := by
  unfold Owes
  infer_instance

def debt (a : Standing) : Option Nat := if a.Owes then some a.entry.session else none

theorem debt_congr {a b : Standing} (hstate : b.entry.state = a.entry.state)
    (hsession : b.entry.session = a.entry.session)
    (hconnection : b.count .opening + b.count .adding + b.count .reading
      = a.count .opening + a.count .adding + a.count .reading)
    (hsuccess : b.count .success = a.count .success) : b.debt = a.debt := by
  have howes : b.Owes ↔ a.Owes := by
    unfold Owes
    rw [hstate, hconnection, hsuccess]
  unfold debt
  rw [hsession, if_congr howes rfl rfl]

/-- How the parts in an entry go together with the entry. -/
structure Ok (a : Standing) : Prop where
  released : a.entry.released = true → a.listed = false ∧ ∀ k, k ≠ .dead → a.count k = 0
  freed : a.entry.released = true → a.frees = [0] ∨ a.frees = [1] ∧ a.adds = 0
  kept : a.entry.released = false → a.frees = []
  unread : 0 < a.count .opening + a.count .adding + a.count .direct → a.adds = 0
  ref : a.entry.released = false → a.entry.ref = a.count .opening + a.count .adding + a.count .reading
    + a.count .direct + a.count .parting + a.count .dropping
    + if a.entry.state = .closing then a.count .success else 0
  single : a.count .opening + a.count .adding + a.count .reading + a.count .direct ≤ 1
  young : 0 < a.count .opening + a.count .adding + a.count .direct → a.listed = false
    ∧ a.count .parting = 0 ∧ a.count .dropping = 0 ∧ a.count .freeing = 0 ∧ a.count .success = 0
    ∧ a.count .taken = 0 ∧ a.count .leaving = 0 ∧ a.count .dead = 0
  opening : 0 < a.count .opening → a.entry.state = .connecting
  adding : 0 < a.count .adding → a.entry.state = .receiving
  reading : 0 < a.count .reading → a.entry.state ≠ .connecting
  success : a.entry.state = .success → a.count .success = 1 ∧ a.count .reading = 1
  closing : a.entry.state = .closing → a.count .success ≤ 1 ∧ (a.count .success = 1 → a.count .reading = 0)
  other : a.entry.state ≠ .success → a.entry.state ≠ .closing → a.count .success = 0
  listed_iff : a.listed = true ↔ a.entry.state = .idle ∧ a.count .reading = 1 ∧ a.count .taken = 0
  mutex : a.count .taken + a.count .leaving + a.count .parting + a.count .dead
    = if a.entry.mutex = true then 1 else 0
  request : 0 < a.count .taken + a.count .leaving → a.count .reading = 1
  taken : 0 < a.count .taken → a.entry.state = .idle
  freeing : 0 < a.count .freeing → a.entry.ref = 0 ∧ a.count .freeing = 1
  message : a.entry.node = some { operation := .read, phase := .message } → a.entry.state = .receiving

theorem Ok.alive {a : Standing} (h : a.Ok) {k : Kind} (hk : k ≠ .dead) (hpos : 0 < a.count k) :
    a.entry.released = false := by
  rw [Bool.eq_false_iff]
  intro hreleased
  have hzero := (h.released hreleased).2 k hk
  omega

theorem Ok.alive_of_shift {a : Standing} (h : a.Ok) {c' : Kind → Nat} {k : Kind} {k' : Option Kind}
    (hc : Shift a.count c' (some k) k') (hk : k ≠ .dead) (hne : k' ≠ some k) : a.entry.released = false := by
  have hcount := hc k
  rw [if_pos rfl, if_neg hne] at hcount
  exact h.alive hk (by omega)

theorem ok_launched {a : Standing} (hstate : a.entry.state = .connecting) (href : a.entry.ref = 1)
    (hmutex : a.entry.mutex = false) (hreleased : a.entry.released = false)
    (hnode : a.entry.node ≠ some { operation := .read, phase := .message })
    (hcount : ∀ k, a.count k = if k = .opening then 1 else 0) (hlisted : a.listed = false)
    (hadds : a.adds = 0) (hfrees : a.frees = []) : a.Ok := by
  constructor <;> simp_all

theorem debt_launched {a : Standing} (hstate : a.entry.state = .connecting)
    (hcount : ∀ k, a.count k = if k = .opening then 1 else 0) : a.debt = some a.entry.session := by
  simp [debt, Owes, hstate, hcount]

theorem ok_refused {a : Standing} (hstate : a.entry.state = .connecting) (hmutex : a.entry.mutex = false)
    (hreleased : a.entry.released = true) (hnode : a.entry.node = none) (hcount : ∀ k, a.count k = 0)
    (hlisted : a.listed = false) (hadds : a.adds = 0) (hfrees : a.frees = [1]) : a.Ok := by
  constructor <;> simp_all

def SameLog (a b : Standing) : Prop := b.adds = a.adds ∧ b.frees = a.frees

section Transitions

variable {a b : Standing}

theorem Ok.setNode (h : a.Ok) {node : Option Registration} (hc : b.count = a.count)
    (hentry : b.entry = { a.entry with node := node }) (hlisted : b.listed = a.listed) (hlog : SameLog a b)
    (hnode : node = some { operation := .read, phase := .message } → a.entry.state = .receiving) :
    b.Ok ∧ b.debt = a.debt := by
  obtain ⟨hadds, hfrees⟩ := hlog
  have hb : b = { a with entry := { a.entry with node := node } } :=
    Standing.ext hentry hc hlisted hadds hfrees
  rw [hb]
  exact ⟨⟨h.released, h.freed, h.kept, h.unread, h.ref, h.single, h.young, h.opening, h.adding, h.reading,
    h.success, h.closing, h.other, h.listed_iff, h.mutex, h.request, h.taken, h.freeing, hnode⟩, rfl⟩

theorem Ok.take (h : a.Ok) (hc : Shift a.count b.count none (some .taken))
    (hentry : b.entry = { a.entry with mutex := true })
    (hlisted : b.listed = false) (hlog : SameLog a b)
    (hin : a.listed = true) (hfree : a.entry.mutex = false) :
    b.Ok ∧ b.debt = a.debt := by
  have hc := forall_kind.1 hc
  simp only [reduceCtorEq, Option.some.injEq, ↓reduceIte, Nat.add_zero] at hc
  cases h
  obtain ⟨hadds, hfrees⟩ := hlog
  refine ⟨?_, ?_⟩
  · constructor <;> grind
  · exact debt_congr (by rw [hentry]) (by rw [hentry]) (by omega) (by omega)

theorem Ok.sendWhole (h : a.Ok) {σ : Nat} (hc : Shift a.count b.count (some .taken) (some .leaving))
    (hentry : b.entry = { a.entry with session := σ, state := .receiving })
    (hlisted : b.listed = a.listed) (hlog : SameLog a b) :
    b.Ok ∧ a.debt = none ∧ b.debt = some σ := by
  have halive := h.alive_of_shift hc (by decide) (by decide)
  have hc := forall_kind.1 hc
  simp only [reduceCtorEq, Option.some.injEq, ↓reduceIte, Nat.add_zero] at hc
  cases h
  obtain ⟨hadds, hfrees⟩ := hlog
  refine ⟨?_, ?_⟩
  · constructor <;> grind
  · simp only [debt, Owes, hentry]
    grind

theorem Ok.sendFailed (h : a.Ok) {σ : Nat} {error : Int}
    (hc : Shift a.count b.count (some .taken) (some .leaving))
    (hentry : b.entry =
      { a.entry with session := σ, error := error, state := .error, node := none })
    (hlisted : b.listed = a.listed) (hlog : SameLog a b) :
    b.Ok ∧ a.debt = none ∧ b.debt = some σ := by
  have halive := h.alive_of_shift hc (by decide) (by decide)
  have hc := forall_kind.1 hc
  simp only [reduceCtorEq, Option.some.injEq, ↓reduceIte, Nat.add_zero] at hc
  cases h
  obtain ⟨hadds, hfrees⟩ := hlog
  refine ⟨?_, ?_⟩
  · constructor <;> grind
  · simp only [debt, Owes, hentry]
    grind

theorem Ok.leave (h : a.Ok) (hc : Shift a.count b.count (some .leaving) none)
    (hentry : b.entry = { a.entry with mutex := false })
    (hlisted : b.listed = a.listed) (hlog : SameLog a b) :
    b.Ok ∧ b.debt = a.debt := by
  have halive := h.alive_of_shift hc (by decide) (by decide)
  have hc := forall_kind.1 hc
  simp only [reduceCtorEq, Option.some.injEq, ↓reduceIte, Nat.add_zero] at hc
  cases h
  obtain ⟨hadds, hfrees⟩ := hlog
  refine ⟨?_, ?_⟩
  · constructor <;> grind
  · exact debt_congr (by rw [hentry]) (by rw [hentry]) (by omega) (by omega)

theorem Ok.append (h : a.Ok) {node : Option Registration}
    (hc : Shift a.count b.count none (some .success))
    (hentry : b.entry = { a.entry with state := .success, node := node })
    (hlisted : b.listed = a.listed) (hlog : SameLog a b)
    (hnode : a.entry.node = some { operation := .read, phase := .message }) (hpart : 0 < a.count .reading)
    (hnode' : node ≠ some { operation := .read, phase := .message }) :
    b.Ok ∧ b.debt = a.debt := by
  have hc := forall_kind.1 hc
  simp only [reduceCtorEq, Option.some.injEq, ↓reduceIte, Nat.add_zero] at hc
  cases h
  obtain ⟨hadds, hfrees⟩ := hlog
  refine ⟨?_, ?_⟩
  · constructor <;> grind
  · simp only [debt, Owes, hentry]
    grind

theorem Ok.sent (h : a.Ok) (hc : Shift a.count b.count (some .opening) (some .adding))
    (hentry : b.entry = { a.entry with state := .receiving })
    (hlisted : b.listed = a.listed) (hlog : SameLog a b) :
    b.Ok ∧ b.debt = a.debt := by
  have halive := h.alive_of_shift hc (by decide) (by decide)
  have hc := forall_kind.1 hc
  simp only [reduceCtorEq, Option.some.injEq, ↓reduceIte, Nat.add_zero] at hc
  cases h
  obtain ⟨hadds, hfrees⟩ := hlog
  refine ⟨?_, ?_⟩
  · constructor <;> grind
  · simp only [debt, Owes, hentry]
    grind

theorem Ok.failOpening (h : a.Ok) (hc : Shift a.count b.count (some .opening) (some .direct))
    (hentry : b.entry = a.entry)
    (hlisted : b.listed = a.listed) (hlog : SameLog a b) :
    b.Ok ∧ a.debt = some a.entry.session ∧ b.debt = none := by
  have halive := h.alive_of_shift hc (by decide) (by decide)
  have hc := forall_kind.1 hc
  simp only [reduceCtorEq, Option.some.injEq, ↓reduceIte, Nat.add_zero] at hc
  cases h
  obtain ⟨hadds, hfrees⟩ := hlog
  refine ⟨?_, ?_⟩
  · constructor <;> grind
  · simp only [debt, Owes, hentry]
    grind

theorem Ok.failAdding (h : a.Ok) (hc : Shift a.count b.count (some .adding) (some .direct))
    (hentry : b.entry = a.entry)
    (hlisted : b.listed = a.listed) (hlog : SameLog a b) :
    b.Ok ∧ a.debt = some a.entry.session ∧ b.debt = none := by
  have halive := h.alive_of_shift hc (by decide) (by decide)
  have hc := forall_kind.1 hc
  simp only [reduceCtorEq, Option.some.injEq, ↓reduceIte, Nat.add_zero] at hc
  cases h
  obtain ⟨hadds, hfrees⟩ := hlog
  refine ⟨?_, ?_⟩
  · constructor <;> grind
  · simp only [debt, Owes, hentry]
    grind

theorem Ok.add (h : a.Ok) (hc : Shift a.count b.count (some .adding) (some .reading))
    (hentry : b.entry = { a.entry with node := some { operation := .read, phase := .none } })
    (hlisted : b.listed = a.listed) (hlog : b.adds = a.adds + 1 ∧ b.frees = a.frees) :
    b.Ok ∧ b.debt = a.debt := by
  have halive := h.alive_of_shift hc (by decide) (by decide)
  have hc := forall_kind.1 hc
  simp only [reduceCtorEq, Option.some.injEq, ↓reduceIte, Nat.add_zero] at hc
  cases h
  obtain ⟨hadds, hfrees⟩ := hlog
  refine ⟨?_, ?_⟩
  · constructor <;> grind
  · exact debt_congr (by rw [hentry]) (by rw [hentry]) (by omega) (by omega)

theorem Ok.succeedIdle (h : a.Ok) (hc : Shift a.count b.count (some .success) (some .dropping))
    (hentry : b.entry = { a.entry with ref := a.entry.ref + 1, state := .idle })
    (hlisted : b.listed = true) (hlog : SameLog a b)
    (hstate : a.entry.state = .success) :
    b.Ok ∧ a.debt = some a.entry.session ∧ b.debt = none := by
  have halive := h.alive_of_shift hc (by decide) (by decide)
  have hc := forall_kind.1 hc
  simp only [reduceCtorEq, Option.some.injEq, ↓reduceIte, Nat.add_zero] at hc
  cases h
  obtain ⟨hadds, hfrees⟩ := hlog
  refine ⟨?_, ?_⟩
  · constructor <;> grind
  · simp only [debt, Owes, hentry]
    grind

theorem Ok.succeedClosing (h : a.Ok) (hc : Shift a.count b.count (some .success) (some .dropping))
    (hentry : b.entry = { a.entry with ref := a.entry.ref + 1, state := .closing })
    (hlisted : b.listed = a.listed) (hlog : SameLog a b)
    (hstate : a.entry.state = .success) :
    b.Ok ∧ a.debt = some a.entry.session ∧ b.debt = none := by
  have halive := h.alive_of_shift hc (by decide) (by decide)
  have hc := forall_kind.1 hc
  simp only [reduceCtorEq, Option.some.injEq, ↓reduceIte, Nat.add_zero] at hc
  cases h
  obtain ⟨hadds, hfrees⟩ := hlog
  refine ⟨?_, ?_⟩
  · constructor <;> grind
  · simp only [debt, Owes, hentry]
    grind

theorem Ok.succeedClosed (h : a.Ok) (hc : Shift a.count b.count (some .success) (some .dropping))
    (hentry : b.entry = a.entry)
    (hlisted : b.listed = a.listed) (hlog : SameLog a b)
    (hstate : a.entry.state ≠ .success) :
    b.Ok ∧ a.debt = some a.entry.session ∧ b.debt = none := by
  have halive := h.alive_of_shift hc (by decide) (by decide)
  have hc := forall_kind.1 hc
  simp only [reduceCtorEq, Option.some.injEq, ↓reduceIte, Nat.add_zero] at hc
  have hclosing : a.entry.state = .closing := by
    by_contra hne
    have := h.other hstate hne
    omega
  cases h
  obtain ⟨hadds, hfrees⟩ := hlog
  refine ⟨?_, ?_⟩
  · constructor <;> grind
  · simp only [debt, Owes, hentry]
    grind

theorem Ok.closeIdle (h : a.Ok) (hc : Shift a.count b.count (some .reading) (some .parting))
    (hentry : b.entry = { a.entry with mutex := true })
    (hlisted : b.listed = false) (hlog : SameLog a b)
    (hstate : a.entry.state = .idle) (hfree : a.entry.mutex = false) :
    b.Ok ∧ b.debt = a.debt := by
  have halive := h.alive_of_shift hc (by decide) (by decide)
  have hc := forall_kind.1 hc
  simp only [reduceCtorEq, Option.some.injEq, ↓reduceIte, Nat.add_zero] at hc
  cases h
  obtain ⟨hadds, hfrees⟩ := hlog
  refine ⟨?_, ?_⟩
  · constructor <;> grind
  · simp only [debt, Owes, hentry]
    grind

/-- The end of a connection that waits for a reply, or whose message could not be written. -/
theorem Ok.closeWaiting (h : a.Ok) (hc : Shift a.count b.count (some .reading) (some .parting))
    (hentry : b.entry = { a.entry with mutex := true })
    (hlisted : b.listed = a.listed) (hlog : SameLog a b)
    (hstate : a.entry.state = .receiving ∨ a.entry.state = .error) (hfree : a.entry.mutex = false) :
    b.Ok ∧ a.debt = some a.entry.session ∧ b.debt = none := by
  have halive := h.alive_of_shift hc (by decide) (by decide)
  have hc := forall_kind.1 hc
  simp only [reduceCtorEq, Option.some.injEq, ↓reduceIte, Nat.add_zero] at hc
  cases h
  obtain ⟨hadds, hfrees⟩ := hlog
  refine ⟨?_, ?_⟩
  · constructor <;> grind
  · simp only [debt, Owes, hentry]
    grind

theorem Ok.closeOther (h : a.Ok) (hc : Shift a.count b.count (some .reading) (some .parting))
    (hentry : b.entry = { a.entry with mutex := true })
    (hlisted : b.listed = a.listed) (hlog : SameLog a b)
    (hidle : a.entry.state ≠ .idle) (hreceiving : a.entry.state ≠ .receiving)
    (herror : a.entry.state ≠ .error) (hsuccess : a.entry.state ≠ .success)
    (hfree : a.entry.mutex = false) :
    b.Ok ∧ b.debt = a.debt := by
  have halive := h.alive_of_shift hc (by decide) (by decide)
  have hc := forall_kind.1 hc
  simp only [reduceCtorEq, Option.some.injEq, ↓reduceIte, Nat.add_zero] at hc
  cases h
  obtain ⟨hadds, hfrees⟩ := hlog
  refine ⟨?_, ?_⟩
  · constructor <;> grind
  · simp only [debt, Owes, hentry]
    grind

/-- The end of a connection with a complete reply, which the entry is left to. -/
theorem Ok.closeSuccess (h : a.Ok) (hc : Shift a.count b.count (some .reading) (some .dead))
    (hentry : b.entry = { a.entry with mutex := true, state := .closing })
    (hlisted : b.listed = a.listed) (hlog : SameLog a b)
    (hstate : a.entry.state = .success) (hfree : a.entry.mutex = false) :
    b.Ok ∧ b.debt = a.debt := by
  have halive := h.alive_of_shift hc (by decide) (by decide)
  have hc := forall_kind.1 hc
  simp only [reduceCtorEq, Option.some.injEq, ↓reduceIte, Nat.add_zero] at hc
  cases h
  obtain ⟨hadds, hfrees⟩ := hlog
  refine ⟨?_, ?_⟩
  · constructor <;> grind
  · simp only [debt, Owes, hentry]
    grind

theorem Ok.part (h : a.Ok) (hc : Shift a.count b.count (some .parting) (some .dropping))
    (hentry : b.entry = { a.entry with mutex := false })
    (hlisted : b.listed = a.listed) (hlog : SameLog a b) :
    b.Ok ∧ b.debt = a.debt := by
  have halive := h.alive_of_shift hc (by decide) (by decide)
  have hc := forall_kind.1 hc
  simp only [reduceCtorEq, Option.some.injEq, ↓reduceIte, Nat.add_zero] at hc
  cases h
  obtain ⟨hadds, hfrees⟩ := hlog
  refine ⟨?_, ?_⟩
  · constructor <;> grind
  · exact debt_congr (by rw [hentry]) (by rw [hentry]) (by omega) (by omega)

theorem Ok.forget (h : a.Ok) (hc : Shift a.count b.count (some .dead) none)
    (hentry : b.entry = { a.entry with mutex := false })
    (hlisted : b.listed = a.listed) (hlog : SameLog a b) :
    b.Ok ∧ b.debt = a.debt := by
  have hsame : ∀ k, k ≠ .dead → b.count k = a.count k := by
    intro k hk
    simpa [Ne.symm hk] using hc k
  have hc := forall_kind.1 hc
  simp only [reduceCtorEq, Option.some.injEq, ↓reduceIte, Nat.add_zero] at hc
  cases h
  obtain ⟨hadds, hfrees⟩ := hlog
  refine ⟨?_, ?_⟩
  · constructor <;> grind
  · exact debt_congr (by rw [hentry]) (by rw [hentry]) (by omega) (by omega)

theorem Ok.drop (h : a.Ok) (hc : Shift a.count b.count (some .dropping) none)
    (hentry : b.entry = { a.entry with ref := a.entry.ref - 1 })
    (hlisted : b.listed = a.listed) (hlog : SameLog a b) :
    b.Ok ∧ b.debt = a.debt := by
  have halive := h.alive_of_shift hc (by decide) (by decide)
  have hc := forall_kind.1 hc
  simp only [reduceCtorEq, Option.some.injEq, ↓reduceIte, Nat.add_zero] at hc
  cases h
  obtain ⟨hadds, hfrees⟩ := hlog
  refine ⟨?_, ?_⟩
  · constructor <;> grind
  · exact debt_congr (by rw [hentry]) (by rw [hentry]) (by omega) (by omega)

theorem Ok.dropLast (h : a.Ok) (hc : Shift a.count b.count (some .dropping) (some .freeing))
    (hentry : b.entry = { a.entry with ref := a.entry.ref - 1 })
    (hlisted : b.listed = a.listed) (hlog : SameLog a b)
    (hlast : a.entry.ref - 1 = 0) :
    b.Ok ∧ b.debt = a.debt := by
  have halive := h.alive_of_shift hc (by decide) (by decide)
  have hc := forall_kind.1 hc
  simp only [reduceCtorEq, Option.some.injEq, ↓reduceIte, Nat.add_zero] at hc
  cases h
  obtain ⟨hadds, hfrees⟩ := hlog
  refine ⟨?_, ?_⟩
  · constructor <;> grind
  · exact debt_congr (by rw [hentry]) (by rw [hentry]) (by omega) (by omega)

/-- An entry without references is released. -/
theorem Ok.free (h : a.Ok) (hc : Shift a.count b.count (some .freeing) none)
    (hentry : b.entry = { a.entry with released := true })
    (hlisted : b.listed = a.listed) (hlog : b.adds = a.adds ∧ b.frees = a.frees ++ [a.entry.ref]) :
    b.Ok ∧ b.debt = a.debt := by
  have halive := h.alive_of_shift hc (by decide) (by decide)
  have hc := forall_kind.1 hc
  simp only [reduceCtorEq, Option.some.injEq, ↓reduceIte, Nat.add_zero] at hc
  have hnone : ∀ k, k ≠ .dead → b.count k = 0 := by
    have href := h.freeing (by omega)
    have hsum := h.ref halive
    have hreading : a.count .reading = 0 := by omega
    have hsuccess : a.count .success = 0 := by
      have := h.success
      have := h.other
      grind
    have hrequest : a.count .taken + a.count .leaving = 0 := by
      have := h.request
      omega
    rw [forall_kind]
    grind
  cases h
  obtain ⟨hadds, hfrees⟩ := hlog
  refine ⟨?_, ?_⟩
  · constructor <;> grind
  · exact debt_congr (by rw [hentry]) (by rw [hentry]) (by omega) (by omega)

theorem Ok.freeDirect (h : a.Ok) (hc : Shift a.count b.count (some .direct) none)
    (hentry : b.entry = { a.entry with released := true })
    (hlisted : b.listed = a.listed) (hlog : b.adds = a.adds ∧ b.frees = a.frees ++ [a.entry.ref]) :
    b.Ok ∧ b.debt = a.debt := by
  have halive := h.alive_of_shift hc (by decide) (by decide)
  have hc := forall_kind.1 hc
  simp only [reduceCtorEq, Option.some.injEq, ↓reduceIte, Nat.add_zero] at hc
  have hnone : ∀ k, k ≠ .dead → b.count k = 0 := by
    rw [forall_kind]
    have hyoung := h.young (by omega)
    have hsingle := h.single
    grind
  cases h
  obtain ⟨hadds, hfrees⟩ := hlog
  refine ⟨?_, ?_⟩
  · constructor <;> grind
  · exact debt_congr (by rw [hentry]) (by rw [hentry]) (by omega) (by omega)

end Transitions

end Standing

end WorkflowModel.Kernel.Communicator
