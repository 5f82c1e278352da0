import WorkflowModel.Kernel.Communicator
import WorkflowModel.Lib.ListSet

/-!
# What the communicator owes its sessions

The purpose of the communicator, without connections: a session that is accepted is owed an answer. The debt is
first with an entry, then with a handler thread, and it is paid with the call of `handle`. The thread calls
`release` of the target first, and makes no other call in between. The debt is in one place at a time, so a
session is answered once.
-/

namespace WorkflowModel.Kernel.Communicator

def Event.handler : Event → Option Nat
  | .release h _ _ => some h
  | .handle h _ _ _ => some h
  | .addRead h _ => some h
  | .releaseConn h _ _ => h

def Event.isHandle (σ : Nat) : Event → Bool
  | .handle _ σ' _ _ => σ' = σ
  | _ => false

def Event.isRelease (σ : Nat) : Event → Bool
  | .release _ _ σ' => σ' = σ
  | _ => false

def Event.isNote : Event → Bool
  | .addRead _ _ => true
  | .releaseConn _ _ _ => true
  | _ => false

def lastCall (h : Nat) (log : List Event) : Option Event :=
  (log.filter fun event => event.handler = some h).getLast?

theorem lastCall_concat_self {h : Nat} {event : Event} (log : List Event) (hevent : event.handler = some h) :
    lastCall h (log ++ [event]) = some event := by
  simp [lastCall, hevent]

theorem lastCall_concat_of_ne {h : Nat} {event : Event} (log : List Event) (hevent : event.handler ≠ some h) :
    lastCall h (log ++ [event]) = lastCall h log := by
  simp [lastCall, hevent]

/-- A session: its target, the entry it was given, and whether it is accepted. -/
structure Bond where
  target : Nat
  conn : Option Nat
  bound : Bool
  deriving DecidableEq, Repr

/-- An answer that a handler thread has to give, and whether `release` has been called for it. -/
structure Voice where
  entry : Nat
  session : Nat
  announced : Bool
  deriving DecidableEq, Repr

@[ext]
structure Ledger where
  debts : Nat → Option Nat
  targets : Nat → Nat
  bonds : List Bond
  voices : List (Option Voice)
  log : List Event

namespace Ledger

inductive Step : Ledger → Ledger → Prop
  | rest (l : Ledger) : Step l l
  | ask (l : Ledger) (target : Nat) :
      Step l { l with bonds := l.bonds ++ [{ target := target, conn := none, bound := false }] }
  | refuse (l : Ledger) (e target : Nat) (event : Event) (hdebt : l.debts e = none)
      (hvoice : ∀ voice, some voice ∈ l.voices → voice.entry ≠ e) (hevent : event.isNote = true)
      (hhandler : event.handler = none) :
      Step l { l with targets := Function.update l.targets e target, log := l.log ++ [event] }
  | bind (l : Ledger) (e σ : Nat) (bond : Bond) (hbond : l.bonds[σ]? = some bond)
      (hnew : bond.bound = false) (hdebt : l.debts e = none)
      (hvoice : ∀ voice, some voice ∈ l.voices → voice.entry = e → l.targets e = bond.target) :
      Step l { l with
        debts := Function.update l.debts e (some σ)
        targets := Function.update l.targets e bond.target
        bonds := l.bonds.set σ { bond with conn := some e, bound := true } }
  | hold (l : Ledger) (h e σ : Nat) (hdebt : l.debts e = some σ) (hvoice : l.voices[h]? = some none) :
      Step l { l with
        debts := Function.update l.debts e none
        voices := l.voices.set h (some { entry := e, session := σ, announced := false }) }
  | release (l : Ledger) (h e σ : Nat)
      (hvoice : l.voices[h]? = some (some { entry := e, session := σ, announced := false })) :
      Step l { l with
        voices := l.voices.set h (some { entry := e, session := σ, announced := true })
        log := l.log ++ [.release h (l.targets e) σ] }
  | answer (l : Ledger) (h e σ : Nat) (state : CsState) (error : Int)
      (hvoice : l.voices[h]? = some (some { entry := e, session := σ, announced := true })) :
      Step l { l with
        voices := l.voices.set h none
        log := l.log ++ [.handle h σ state error] }
  | note (l : Ledger) (h : Nat) (event : Event) (hevent : event.isNote = true)
      (hhandler : event.handler = some h) (hvoice : l.voices[h]? = some none) :
      Step l { l with log := l.log ++ [event] }

def handles (l : Ledger) (σ : Nat) : Nat := l.log.countP (Event.isHandle σ)

def releases (l : Ledger) (σ : Nat) : Nat := l.log.countP (Event.isRelease σ)

/-- The number of handler threads with an answer for the session. -/
def voiced (l : Ledger) (σ : Nat) : Nat :=
  l.voices.countP fun voice => voice.any fun voice => voice.session = σ

def announced (l : Ledger) (σ : Nat) : Nat :=
  l.voices.countP fun voice => voice.any fun voice => voice.session = σ && voice.announced

def Owed (l : Ledger) (σ : Nat) : Prop := ∃ e, l.debts e = some σ

def Bound (l : Ledger) (σ : Nat) : Prop := ∃ bond, l.bonds[σ]? = some bond ∧ bond.bound = true

/-- Every answer follows its `release` as the next call of the thread. -/
def Paired (l : Ledger) : Prop :=
  ∀ before after h σ state error, l.log = before ++ .handle h σ state error :: after →
    ∃ bond, l.bonds[σ]? = some bond ∧ lastCall h before = some (.release h bond.target σ)

section Invariant

open scoped Classical

/-- Every debt is in one place, and the answers are announced. -/
structure Ok (l : Ledger) : Prop where
  bond : ∀ e σ, l.debts e = some σ →
    ∃ bond, l.bonds[σ]? = some bond ∧ bond.conn = some e ∧ bond.target = l.targets e
  voice : ∀ voice, some voice ∈ l.voices →
    ∃ bond, l.bonds[voice.session]? = some bond ∧ bond.target = l.targets voice.entry
  balance : ∀ σ, l.handles σ + l.voiced σ + (if l.Owed σ then 1 else 0) = if l.Bound σ then 1 else 0
  releases : ∀ σ, l.releases σ = l.handles σ + l.announced σ
  announced : ∀ h e σ, l.voices[h]? = some (some { entry := e, session := σ, announced := true }) →
    ∃ bond, l.bonds[σ]? = some bond ∧ lastCall h l.log = some (.release h bond.target σ)
  paired : l.Paired

variable {l l' : Ledger}

theorem handles_concat {event : Event} (hlog : l'.log = l.log ++ [event]) (σ : Nat) :
    l'.handles σ = l.handles σ + if event.isHandle σ = true then 1 else 0 := by
  simp [handles, hlog, List.countP_append, List.countP_singleton]

theorem releases_concat {event : Event} (hlog : l'.log = l.log ++ [event]) (σ : Nat) :
    l'.releases σ = l.releases σ + if event.isRelease σ = true then 1 else 0 := by
  simp [releases, hlog, List.countP_append, List.countP_singleton]

theorem isHandle_of_isNote {event : Event} (h : event.isNote = true) (σ : Nat) :
    event.isHandle σ = false := by
  cases event <;> simp_all [Event.isNote, Event.isHandle]

theorem isRelease_of_isNote {event : Event} (h : event.isNote = true) (σ : Nat) :
    event.isRelease σ = false := by
  cases event <;> simp_all [Event.isNote, Event.isRelease]

theorem concat_eq_append_cons {α : Type*} {log before after : List α} {event event' : α}
    (h : log ++ [event] = before ++ event' :: after) :
    (log = before ∧ event = event') ∨ ∃ rest, log = before ++ event' :: rest := by
  rcases List.eq_nil_or_concat after with rfl | ⟨rest, last, rfl⟩
  · obtain ⟨hlog, hevent⟩ := List.append_inj' h rfl
    simp at hevent
    exact .inl ⟨hlog, hevent⟩
  · rw [List.concat_eq_append, ← List.cons_append, ← List.append_assoc] at h
    exact .inr ⟨rest, (List.append_inj' h rfl).1⟩

theorem Paired.concat {event : Event} (h : l.Paired) (hbonds : l'.bonds = l.bonds)
    (hlog : l'.log = l.log ++ [event])
    (hevent : ∀ h σ state error, event = .handle h σ state error →
      ∃ bond, l.bonds[σ]? = some bond ∧ lastCall h l.log = some (.release h bond.target σ)) :
    l'.Paired := by
  intro before after thread σ state error hsplit
  rw [hlog] at hsplit
  rw [hbonds]
  rcases concat_eq_append_cons hsplit with ⟨rfl, rfl⟩ | ⟨rest, hrest⟩
  · exact hevent thread σ state error rfl
  · exact h before rest thread σ state error hrest

theorem voiced_set {thread : Nat} {voice voice' : Option Voice} (hvoice : l.voices[thread]? = some voice)
    (hvoices : l'.voices = l.voices.set thread voice') (σ : Nat) :
    l'.voiced σ + (if voice.any (fun voice => voice.session = σ) = true then 1 else 0)
      = l.voiced σ + if voice'.any (fun voice => voice.session = σ) = true then 1 else 0 := by
  rw [voiced, hvoices]
  exact ListSet.countP_set_add _ hvoice voice'

theorem announced_set {thread : Nat} {voice voice' : Option Voice} (hvoice : l.voices[thread]? = some voice)
    (hvoices : l'.voices = l.voices.set thread voice') (σ : Nat) :
    l'.announced σ + (if voice.any (fun voice => voice.session = σ && voice.announced) = true then 1 else 0)
      = l.announced σ
        + if voice'.any (fun voice => voice.session = σ && voice.announced) = true then 1 else 0 := by
  rw [announced, hvoices]
  exact ListSet.countP_set_add _ hvoice voice'

theorem getElem?_voices_set {thread : Nat} {voice voice' : Option Voice}
    (hvoice : l.voices[thread]? = some voice) (hvoices : l'.voices = l.voices.set thread voice')
    (thread' : Nat) :
    l'.voices[thread']? = if thread = thread' then some voice' else l.voices[thread']? := by
  rw [hvoices, List.getElem?_set, if_pos (List.getElem?_eq_some_iff.1 hvoice).1]

theorem mem_voices_set {thread : Nat} {voice voice' : Option Voice}
    (hvoices : l'.voices = l.voices.set thread voice') (hmem : voice ∈ l'.voices) :
    voice ∈ l.voices ∨ voice = voice' := by
  rw [hvoices] at hmem
  exact List.mem_or_eq_of_mem_set hmem

def KeepsTargets (bonds bonds' : List Bond) : Prop :=
  ∀ (σ : Nat) (bond : Bond), bonds[σ]? = some bond →
    ∃ bond' : Bond, bonds'[σ]? = some bond' ∧ bond'.target = bond.target

theorem keepsTargets_concat (bonds : List Bond) (bond : Bond) : KeepsTargets bonds (bonds ++ [bond]) := by
  intro σ bond' h
  obtain ⟨hσ, -⟩ := List.getElem?_eq_some_iff.1 h
  exact ⟨bond', by rw [List.getElem?_append_left hσ, h], rfl⟩

theorem keepsTargets_set {bonds : List Bond} {σ : Nat} {bond : Bond} (h : bonds[σ]? = some bond)
    {bond' : Bond} (htarget : bond'.target = bond.target) : KeepsTargets bonds (bonds.set σ bond') := by
  intro σ' old hold
  obtain ⟨hσ, -⟩ := List.getElem?_eq_some_iff.1 h
  by_cases heq : σ = σ'
  · subst heq
    rw [h] at hold
    cases hold
    exact ⟨bond', by rw [List.getElem?_set_self hσ], htarget⟩
  · exact ⟨old, by rw [List.getElem?_set_ne heq, hold], rfl⟩

theorem Paired.of_keepsTargets (h : l.Paired) (hbonds : KeepsTargets l.bonds l'.bonds)
    (hlog : l'.log = l.log) : l'.Paired := by
  intro before after thread σ state error hsplit
  rw [hlog] at hsplit
  obtain ⟨bond, hbond, hlast⟩ := h before after thread σ state error hsplit
  obtain ⟨bond', hbond', htarget⟩ := hbonds σ bond hbond
  exact ⟨bond', hbond', by rw [hlast, htarget]⟩

theorem exists_update_eq_iff {debts : Nat → Option Nat} {e σ : Nat} {x : Option Nat} (hold : debts e ≠ some σ)
    (hnew : x ≠ some σ) : (∃ e', Function.update debts e x e' = some σ) ↔ ∃ e', debts e' = some σ := by
  constructor
  · rintro ⟨e', he'⟩
    by_cases heq : e' = e
    · subst heq
      rw [Function.update_self] at he'
      exact absurd he' hnew
    · rw [Function.update_of_ne heq] at he'
      exact ⟨e', he'⟩
  · rintro ⟨e', he'⟩
    have heq : e' ≠ e := by
      rintro rfl
      exact hold he'
    exact ⟨e', by rw [Function.update_of_ne heq, he']⟩

theorem not_owed_of_not_bound (h : l.Ok) {σ : Nat} (hbound : ¬ l.Bound σ) :
    l.handles σ = 0 ∧ l.voiced σ = 0 ∧ ¬ l.Owed σ := by
  have hbalance := h.balance σ
  rw [if_neg hbound] at hbalance
  refine ⟨by omega, by omega, ?_⟩
  intro howed
  rw [if_pos howed] at hbalance
  omega

theorem voice_of_keepsTargets (h : l.Ok) (hkeep : KeepsTargets l.bonds l'.bonds)
    (hvoices : l'.voices = l.voices)
    (htargets : ∀ voice, some voice ∈ l.voices → l'.targets voice.entry = l.targets voice.entry) :
    ∀ voice, some voice ∈ l'.voices →
      ∃ bond, l'.bonds[voice.session]? = some bond ∧ bond.target = l'.targets voice.entry := by
  intro voice hvoice
  rw [hvoices] at hvoice
  obtain ⟨bond, hbond, htarget⟩ := h.voice voice hvoice
  obtain ⟨bond', hbond', htarget'⟩ := hkeep _ bond hbond
  refine ⟨bond', hbond', ?_⟩
  rw [htarget', htarget, htargets voice hvoice]

theorem announced_of_keepsTargets (h : l.Ok) (hkeep : KeepsTargets l.bonds l'.bonds)
    (hvoices : l'.voices = l.voices)
    (hlog : ∀ h, lastCall h l'.log = lastCall h l.log ∨ l.voices[h]? = some none) :
    ∀ h e σ, l'.voices[h]? = some (some { entry := e, session := σ, announced := true }) →
      ∃ bond, l'.bonds[σ]? = some bond ∧ lastCall h l'.log = some (.release h bond.target σ) := by
  intro thread e σ hvoice
  rw [hvoices] at hvoice
  obtain ⟨bond, hbond, hlast⟩ := h.announced thread e σ hvoice
  obtain ⟨bond', hbond', htarget'⟩ := hkeep _ bond hbond
  refine ⟨bond', hbond', ?_⟩
  rcases hlog thread with hsame | hnone
  · rw [htarget', hsame, hlast]
  · rw [hnone] at hvoice
    cases hvoice

theorem voice_of_voices_set (h : l.Ok) {thread : Nat} {voice' : Option Voice} (htargets : l'.targets = l.targets)
    (hbonds : l'.bonds = l.bonds) (hvoices : l'.voices = l.voices.set thread voice')
    (hnew : ∀ voice, voice' = some voice →
      ∃ bond, l.bonds[voice.session]? = some bond ∧ bond.target = l.targets voice.entry) :
    ∀ voice, some voice ∈ l'.voices →
      ∃ bond, l'.bonds[voice.session]? = some bond ∧ bond.target = l'.targets voice.entry := by
  intro voice hmem
  rw [hbonds, htargets]
  rcases mem_voices_set hvoices hmem with hmem | heq
  · exact h.voice voice hmem
  · exact hnew voice heq.symm

theorem announced_of_voices_set (h : l.Ok) {thread : Nat} {voice voice' : Option Voice}
    (hvoice : l.voices[thread]? = some voice) (hbonds : l'.bonds = l.bonds)
    (hvoices : l'.voices = l.voices.set thread voice')
    (hlog : ∀ thread', thread ≠ thread' → lastCall thread' l'.log = lastCall thread' l.log)
    (hnew : ∀ e σ, voice' = some { entry := e, session := σ, announced := true } →
      ∃ bond, l.bonds[σ]? = some bond ∧ lastCall thread l'.log = some (.release thread bond.target σ)) :
    ∀ h e σ, l'.voices[h]? = some (some { entry := e, session := σ, announced := true }) →
      ∃ bond, l'.bonds[σ]? = some bond ∧ lastCall h l'.log = some (.release h bond.target σ) := by
  intro thread' e σ hvoice'
  rw [getElem?_voices_set hvoice hvoices] at hvoice'
  rw [hbonds]
  by_cases ht : thread = thread'
  · rw [if_pos ht] at hvoice'
    subst ht
    exact hnew e σ (Option.some.inj hvoice')
  · rw [if_neg ht] at hvoice'
    rw [hlog thread' ht]
    exact h.announced thread' e σ hvoice'

theorem keepsTargets_refl (bonds : List Bond) : KeepsTargets bonds bonds := fun _ bond h => ⟨bond, h, rfl⟩

theorem ok_ask (h : l.Ok) {target : Nat} (hdebts : l'.debts = l.debts) (htargets : l'.targets = l.targets)
    (hbonds : l'.bonds = l.bonds ++ [{ target := target, conn := none, bound := false }])
    (hvoices : l'.voices = l.voices) (hlog : l'.log = l.log) : l'.Ok := by
  have hkeep : KeepsTargets l.bonds l'.bonds := by
    rw [hbonds]
    exact keepsTargets_concat l.bonds _
  have hbound : ∀ σ, l'.Bound σ ↔ l.Bound σ := by
    intro σ
    rw [Bound, Bound, hbonds]
    grind
  refine ⟨?_, voice_of_keepsTargets h hkeep hvoices fun _ _ => by rw [htargets], ?_, ?_,
    announced_of_keepsTargets h hkeep hvoices fun _ => .inl (by rw [hlog]),
    h.paired.of_keepsTargets hkeep hlog⟩
  · intro e σ hdebt
    rw [hdebts] at hdebt
    obtain ⟨bond, hbond, hconn, htarget⟩ := h.bond e σ hdebt
    obtain ⟨hσ, -⟩ := List.getElem?_eq_some_iff.1 hbond
    rw [hbonds, htargets]
    exact ⟨bond, by rw [List.getElem?_append_left hσ, hbond], hconn, htarget⟩
  · intro σ
    rw [if_congr (hbound σ) rfl rfl, handles, voiced, hlog, hvoices, Owed, hdebts]
    exact h.balance σ
  · intro σ
    rw [releases, handles, announced, hlog, hvoices]
    exact h.releases σ

theorem ok_note (h : l.Ok) {event : Event} (hdebts : l'.debts = l.debts) (hbonds : l'.bonds = l.bonds)
    (hvoices : l'.voices = l.voices) (hlog : l'.log = l.log ++ [event]) (hevent : event.isNote = true)
    (htargets : ∀ e, l.debts e ≠ none → l'.targets e = l.targets e)
    (hentries : ∀ voice, some voice ∈ l.voices → l'.targets voice.entry = l.targets voice.entry)
    (hvoice : ∀ h, event.handler = some h → l.voices[h]? = some none) : l'.Ok := by
  have hkeep : KeepsTargets l.bonds l'.bonds := by
    rw [hbonds]
    exact keepsTargets_refl l.bonds
  have hhandles : ∀ σ, l'.handles σ = l.handles σ := by
    intro σ
    rw [handles_concat hlog, isHandle_of_isNote hevent]
    rfl
  refine ⟨?_, voice_of_keepsTargets h hkeep hvoices hentries, ?_, ?_,
    announced_of_keepsTargets h hkeep hvoices ?_, h.paired.concat hbonds hlog ?_⟩
  · intro e σ hdebt
    rw [hdebts] at hdebt
    obtain ⟨bond, hbond, hconn, htarget⟩ := h.bond e σ hdebt
    rw [hbonds, htargets e (by rw [hdebt]; simp)]
    exact ⟨bond, hbond, hconn, htarget⟩
  · intro σ
    rw [hhandles, voiced, hvoices, Owed, Bound, hdebts, hbonds]
    exact h.balance σ
  · intro σ
    rw [hhandles, releases_concat hlog, isRelease_of_isNote hevent, announced, hvoices]
    exact h.releases σ
  · intro thread
    by_cases hthread : event.handler = some thread
    · exact .inr (hvoice thread hthread)
    · rw [hlog]
      exact .inl (lastCall_concat_of_ne l.log hthread)
  · rintro thread σ state error rfl
    simp [Event.isNote] at hevent

theorem ok_bind (h : l.Ok) {e σ : Nat} {bond : Bond} (hbond : l.bonds[σ]? = some bond)
    (hnew : bond.bound = false) (hdebt : l.debts e = none)
    (hvoice : ∀ voice, some voice ∈ l.voices → voice.entry = e → l.targets e = bond.target)
    (hdebts : l'.debts = Function.update l.debts e (some σ))
    (htargets : l'.targets = Function.update l.targets e bond.target)
    (hbonds : l'.bonds = l.bonds.set σ { bond with conn := some e, bound := true })
    (hvoices : l'.voices = l.voices) (hlog : l'.log = l.log) : l'.Ok := by
  obtain ⟨hσ, -⟩ := List.getElem?_eq_some_iff.1 hbond
  have hself : l'.bonds[σ]? = some { bond with conn := some e, bound := true } := by
    rw [hbonds, List.getElem?_set_self hσ]
  have hkeep : KeepsTargets l.bonds l'.bonds := by
    rw [hbonds]
    exact keepsTargets_set hbond rfl
  have hunbound : ¬ l.Bound σ := by
    rintro ⟨bond', hbond', hbound⟩
    rw [hbond] at hbond'
    cases hbond'
    rw [hnew] at hbound
    cases hbound
  obtain ⟨hhandles, hvoiced, howed⟩ := not_owed_of_not_bound h hunbound
  refine ⟨?_, voice_of_keepsTargets h hkeep hvoices ?_, ?_, ?_,
    announced_of_keepsTargets h hkeep hvoices fun _ => .inl (by rw [hlog]),
    h.paired.of_keepsTargets hkeep hlog⟩
  · intro e' σ' hdebt'
    rw [hdebts] at hdebt'
    rw [htargets]
    by_cases he : e' = e
    · subst he
      rw [Function.update_self] at hdebt' ⊢
      cases hdebt'
      exact ⟨_, hself, rfl, rfl⟩
    · rw [Function.update_of_ne he] at hdebt' ⊢
      -- a session that an entry owes an answer is not the new one
      have hne : σ ≠ σ' := by
        rintro rfl
        exact howed ⟨e', hdebt'⟩
      rw [hbonds, List.getElem?_set_ne hne]
      exact h.bond e' σ' hdebt'
  · intro voice hmem
    rw [htargets]
    by_cases he : voice.entry = e
    · rw [he, Function.update_self, hvoice voice hmem he]
    · rw [Function.update_of_ne he]
  · intro σ'
    have hbalance := h.balance σ'
    rw [handles, voiced, hlog, hvoices, ← handles, ← voiced]
    by_cases hs : σ = σ'
    · subst hs
      rw [if_pos ⟨e, by rw [hdebts, Function.update_self]⟩, if_pos ⟨_, hself, rfl⟩]
      omega
    · rw [Owed, Bound, hdebts, hbonds, List.getElem?_set_ne hs,
        if_congr (exists_update_eq_iff (by simp [hdebt]) (by simpa using hs)) rfl rfl]
      exact hbalance
  · intro σ'
    rw [releases, handles, announced, hlog, hvoices]
    exact h.releases σ'

theorem ok_hold (h : l.Ok) {thread e σ : Nat} (hdebt : l.debts e = some σ)
    (hvoice : l.voices[thread]? = some none) (hdebts : l'.debts = Function.update l.debts e none)
    (htargets : l'.targets = l.targets) (hbonds : l'.bonds = l.bonds)
    (hvoices : l'.voices = l.voices.set thread (some { entry := e, session := σ, announced := false }))
    (hlog : l'.log = l.log) : l'.Ok := by
  obtain ⟨bond, hbond, hconn, htarget⟩ := h.bond e σ hdebt
  have hother : ∀ e' σ', l'.debts e' = some σ' → e' ≠ e ∧ l.debts e' = some σ' := by
    intro e' σ' hdebt'
    rw [hdebts] at hdebt'
    have he : e' ≠ e := by
      rintro rfl
      rw [Function.update_self] at hdebt'
      cases hdebt'
    rw [Function.update_of_ne he] at hdebt'
    exact ⟨he, hdebt'⟩
  refine ⟨?_, ?_, ?_, ?_, ?_, h.paired.of_keepsTargets (by rw [hbonds]; exact keepsTargets_refl _) hlog⟩
  · intro e' σ' hdebt'
    rw [hbonds, htargets]
    exact h.bond e' σ' (hother e' σ' hdebt').2
  · refine voice_of_voices_set h htargets hbonds hvoices ?_
    rintro voice ⟨⟩
    exact ⟨bond, hbond, htarget⟩
  · intro σ'
    have hbalance := h.balance σ'
    have hcount := voiced_set hvoice hvoices σ'
    rw [handles, hlog, Bound, hbonds, ← handles, ← Bound]
    by_cases hs : σ = σ'
    · subst hs
      -- no other entry has the debt, because the session knows its entry
      have hgone : ¬ l'.Owed σ := by
        rintro ⟨e', hdebt'⟩
        obtain ⟨he, hdebt'⟩ := hother e' σ hdebt'
        obtain ⟨bond', hbond', hconn', -⟩ := h.bond e' σ hdebt'
        rw [hbond] at hbond'
        cases hbond'
        rw [hconn] at hconn'
        cases hconn'
        exact he rfl
      rw [if_pos ⟨e, hdebt⟩] at hbalance
      rw [if_neg hgone]
      simp at hcount
      omega
    · rw [Owed, hdebts, if_congr (exists_update_eq_iff (by simpa [hdebt] using hs) (by simp)) rfl rfl,
        ← Owed]
      simp [hs] at hcount
      omega
  · intro σ'
    have hcount := announced_set hvoice hvoices σ'
    simp at hcount
    rw [releases, handles, hlog, hcount]
    exact h.releases σ'
  · exact announced_of_voices_set h hvoice hbonds hvoices (fun _ _ => by rw [hlog]) (by rintro e' σ' ⟨⟩)

theorem ok_release (h : l.Ok) {thread e σ : Nat}
    (hvoice : l.voices[thread]? = some (some { entry := e, session := σ, announced := false }))
    (hdebts : l'.debts = l.debts) (htargets : l'.targets = l.targets) (hbonds : l'.bonds = l.bonds)
    (hvoices : l'.voices = l.voices.set thread (some { entry := e, session := σ, announced := true }))
    (hlog : l'.log = l.log ++ [.release thread (l.targets e) σ]) : l'.Ok := by
  obtain ⟨bond, hbond, htarget⟩ := h.voice _ (List.mem_of_getElem? hvoice)
  have hhandles : ∀ σ', l'.handles σ' = l.handles σ' := handles_concat hlog
  refine ⟨?_, ?_, ?_, ?_, ?_, h.paired.concat hbonds hlog (by rintro _ _ _ _ ⟨⟩)⟩
  · rw [hdebts, hbonds, htargets]
    exact h.bond
  · refine voice_of_voices_set h htargets hbonds hvoices ?_
    rintro voice ⟨⟩
    exact ⟨bond, hbond, htarget⟩
  · intro σ'
    have hcount := voiced_set hvoice hvoices σ'
    simp at hcount
    rw [hhandles, hcount, Owed, Bound, hdebts, hbonds]
    exact h.balance σ'
  · intro σ'
    have hreleases := h.releases σ'
    have hcount := announced_set hvoice hvoices σ'
    simp at hcount
    rw [hhandles, hcount, releases_concat hlog]
    simp only [Event.isRelease, decide_eq_true_eq]
    omega
  · refine announced_of_voices_set h hvoice hbonds hvoices ?_ ?_
    · intro thread' ht
      rw [hlog, lastCall_concat_of_ne _ (by simpa [Event.handler] using ht)]
    · rintro e' σ' ⟨⟩
      exact ⟨bond, hbond, by rw [hlog, lastCall_concat_self _ rfl, htarget]⟩

theorem ok_answer (h : l.Ok) {thread e σ : Nat} {state : CsState} {error : Int}
    (hvoice : l.voices[thread]? = some (some { entry := e, session := σ, announced := true }))
    (hdebts : l'.debts = l.debts) (htargets : l'.targets = l.targets) (hbonds : l'.bonds = l.bonds)
    (hvoices : l'.voices = l.voices.set thread none)
    (hlog : l'.log = l.log ++ [.handle thread σ state error]) : l'.Ok := by
  refine ⟨?_, ?_, ?_, ?_, ?_, h.paired.concat hbonds hlog ?_⟩
  · rw [hdebts, hbonds, htargets]
    exact h.bond
  · exact voice_of_voices_set h htargets hbonds hvoices (by rintro voice ⟨⟩)
  · intro σ'
    have hbalance := h.balance σ'
    have hcount := voiced_set hvoice hvoices σ'
    have hhandles := handles_concat hlog σ'
    simp [Event.isHandle] at hcount hhandles
    rw [Owed, Bound, hdebts, hbonds, ← Owed, ← Bound]
    omega
  · intro σ'
    have hreleases := h.releases σ'
    have hcount := announced_set hvoice hvoices σ'
    have hhandles := handles_concat hlog σ'
    simp [Event.isHandle] at hcount hhandles
    have hconcat := releases_concat hlog σ'
    simp [Event.isRelease] at hconcat
    omega
  · refine announced_of_voices_set h hvoice hbonds hvoices ?_ (by rintro e' σ' ⟨⟩)
    intro thread' ht
    rw [hlog, lastCall_concat_of_ne _ (by simpa [Event.handler] using ht)]
  · rintro _ _ _ _ ⟨⟩
    exact h.announced thread e σ hvoice

theorem ok_of_empty (hdebts : ∀ e, l.debts e = none) (hbonds : l.bonds = [])
    (hvoices : ∀ voice ∈ l.voices, voice = none) (hlog : l.log = []) : l.Ok := by
  have hnone : ∀ voice, some voice ∉ l.voices := by
    intro voice hmem
    cases hvoices _ hmem
  have hcount : ∀ p : Option Voice → Bool, p none = false → l.voices.countP p = 0 := by
    intro p hp
    rw [List.countP_eq_zero]
    intro voice hmem
    rw [hvoices voice hmem, hp]
    simp
  refine ⟨?_, ?_, ?_, ?_, ?_, ?_⟩
  · intro e σ hdebt
    rw [hdebts] at hdebt
    cases hdebt
  · intro voice hmem
    exact absurd hmem (hnone voice)
  · intro σ
    simp [handles, voiced, hlog, hcount, Owed, hdebts, Bound, hbonds]
  · intro σ
    simp [releases, handles, announced, hlog, hcount]
  · intro thread e σ hvoice
    exact absurd (List.mem_of_getElem? hvoice) (hnone _)
  · intro before after thread σ state error hsplit
    rw [hlog] at hsplit
    simp at hsplit

theorem Ok.step (h : l.Ok) (hstep : Step l l') : l'.Ok := by
  cases hstep with
  | rest => exact h
  | ask target => exact ok_ask h rfl rfl rfl rfl rfl
  | refuse e target event hdebt hvoice hevent hhandler =>
      refine ok_note h rfl rfl rfl rfl hevent ?_ ?_ (by rw [hhandler]; simp)
      · intro e' he'
        refine Function.update_of_ne ?_ _ _
        rintro rfl
        exact he' hdebt
      · intro voice hmem
        exact Function.update_of_ne (hvoice voice hmem) _ _
  | bind e σ bond hbond hnew hdebt hvoice => exact ok_bind h hbond hnew hdebt hvoice rfl rfl rfl rfl rfl
  | hold thread e σ hdebt hvoice => exact ok_hold h hdebt hvoice rfl rfl rfl rfl rfl
  | release thread e σ hvoice => exact ok_release h hvoice rfl rfl rfl rfl rfl
  | answer thread e σ state error hvoice => exact ok_answer h hvoice rfl rfl rfl rfl rfl
  | note thread event hevent hhandler hvoice =>
      refine ok_note h rfl rfl rfl rfl hevent (fun _ _ => rfl) (fun _ _ => rfl) ?_
      intro thread' hthread'
      rw [hhandler] at hthread'
      cases hthread'
      exact hvoice

theorem Ok.handles_add_voiced_le_one (h : l.Ok) (σ : Nat) : l.handles σ + l.voiced σ ≤ 1 := by
  have hbalance := h.balance σ
  have hbound : (if l.Bound σ then 1 else 0) ≤ 1 := by
    split <;> omega
  omega

theorem Ok.handles_le_one (h : l.Ok) (σ : Nat) : l.handles σ ≤ 1 := by
  have htotal := h.handles_add_voiced_le_one σ
  omega

theorem Ok.owed_or_voiced (h : l.Ok) {σ : Nat} (hbound : l.Bound σ) (hhandles : l.handles σ = 0) :
    l.Owed σ ∨ 0 < l.voiced σ := by
  have hbalance := h.balance σ
  rw [if_pos hbound, hhandles] at hbalance
  by_cases howed : l.Owed σ
  · exact .inl howed
  · rw [if_neg howed] at hbalance
    exact .inr (by omega)

end Invariant

end Ledger

end WorkflowModel.Kernel.Communicator
