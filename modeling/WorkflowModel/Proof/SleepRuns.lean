import WorkflowModel.Kernel.SleepSession
import WorkflowModel.Proof.SleepTimers
import Mathlib.Data.List.Perm.Basic

/-!
# Every session sleeps its time

In whatever order the sessions, the connections, the threads of the pollers and the handler threads come to their
turns, a session that sleeps is in one place: in its poller, in the queue, in the hands of a thread, or handled. It
is not found expired before its time has passed, it is found by the first look after that, and it is handled once,
as complete.
-/

namespace WorkflowModel.Kernel.SleepSession

open Poller
open WorkflowModel.Kernel.Machine (Timed IsTimer Advance batchOf DeferredAt someDescriptors readyIo)

def nanos (t : Timespec) : Int := t.sec * 1000000000 + t.nsec

/-- What `clock_gettime` gives. -/
def Normal (t : Timespec) : Prop := 0 ≤ t.nsec ∧ t.nsec < 1000000000

instance decidableNormal (t : Timespec) : Decidable (Normal t) := inferInstanceAs (Decidable (_ ∧ _))

theorem nanos_carry (t : Timespec) : nanos (carry t) = nanos t := by
  unfold carry nanos
  split_ifs
  · dsimp only
    omega
  · rfl

theorem timeoutCmp_lt_iff_nanos {a b : Timespec} (ha : Normal a) (hb : Normal b) :
    timeoutCmp a b < 0 ↔ nanos a < nanos b := by
  rw [timeoutCmp_lt_iff]
  unfold Normal at ha hb
  unfold nanos
  omega

/-- The deadline that `poller_add_timer` gives to the node. -/
def Sleep.deadline (sl : Sleep) : Timespec :=
  carry ⟨sl.since.sec + (timerValue sl.microseconds).sec, sl.since.nsec + (timerValue sl.microseconds).nsec⟩

theorem Sleep.nanos_deadline (sl : Sleep) : nanos sl.deadline = nanos sl.since + sl.microseconds * 1000 := by
  rw [Sleep.deadline, nanos_carry]
  unfold nanos timerValue
  dsimp only
  omega

theorem Sleep.normal_deadline {sl : Sleep} (h : Normal sl.since) : Normal sl.deadline := by
  unfold Normal Sleep.deadline carry timerValue at *
  dsimp only
  split_ifs
  · dsimp only
    omega
  · dsimp only
    omega

/-- The result of the node `n` of the poller `k`. -/
def isFor (k n : Nat) : Nat × Action → Bool
  | (j, .addResult i _ _) => j == k && i == n
  | _ => false

def isHandled (k n : Nat) (h : Nat × Nat × SleepState) : Bool := h.1 == k && h.2.1 == n

def State.counts (k n : Nat) (s : State) : Nat :=
  s.queue.countP (isFor k n) + s.inHand.countP (isFor k n) + s.handled.countP (isHandled k n)

def State.places (sl : Sleep) (s : State) : Nat :=
  (s.pollers[sl.poller]?.elim 0 fun m => m.poller.timed.count sl.node + (held m.pc).count sl.node)
    + s.counts sl.poller sl.node

def State.Waits (sl : Sleep) (s : State) : Prop :=
  ∃ m, s.pollers[sl.poller]? = some m ∧ sl.node ∈ m.poller.timed

theorem newResults_eq {m next : Machine} {added : List Action} (h : next.poller.log = m.poller.log ++ added) :
    newResults m next = added.filter isResult := by
  rw [newResults, h, List.drop_left]

theorem countP_isFor (k n : Nat) (added : List Action) :
    ((added.filter isResult).map fun action => (k, action)).countP (isFor k n) = (handed added).count n := by
  induction added with
  | nil => rfl
  | cons action added ih =>
      cases action with
      | addResult i state error =>
          have hhanded : handed (.addResult i state error :: added) = i :: handed added := rfl
          rw [List.filter_cons_of_pos rfl, List.map_cons, List.countP_cons, ih, hhanded, List.count_cons]
          simp [isFor]
      | message i =>
          rw [List.filter_cons_of_pos rfl, List.map_cons, List.countP_cons, ih]
          rfl
      | _ => exact ih

theorem countP_isFor_of_ne {j k : Nat} (hne : j ≠ k) (n : Nat) (actions : List Action) :
    (actions.map fun action => (k, action)).countP (isFor j n) = 0 := by
  rw [List.countP_eq_zero]
  intro result hresult
  obtain ⟨action, -, rfl⟩ := List.mem_map.mp hresult
  cases action with
  | addResult i state error => simp [isFor, hne.symm]
  | _ => simp [isFor]

theorem handed_append (log added : List Action) : handed (log ++ added) = handed log ++ handed added :=
  List.filterMap_append

/-- The session waits for its deadline, or a look after its deadline has found it. -/
def Placed (looks : List Look) (armed : Nat → Option Timespec) (m : Machine) (sl : Sleep) : Prop :=
  armed sl.node = some sl.deadline
    ∨ (armed sl.node = none ∧ (sl.node ∈ held m.pc ∨ sl.node ∈ handed m.poller.log)
        ∧ ∃ look ∈ looks, look.poller = sl.poller ∧ timeoutCmp sl.deadline look.time < 0)

/-- `armed` has the deadlines of each poller. -/
structure Inv (s : State) (armed : Nat → Nat → Option Timespec) : Prop where
  timed : ∀ k m, s.pollers[k]? = some m → Timed m (armed k)
  owned : ∀ k m n, s.pollers[k]? = some m → IsTimer m.poller n → ∃ sl ∈ s.sleeps, sl.poller = k ∧ sl.node = n
  placed : ∀ sl ∈ s.sleeps, ∃ m, s.pollers[sl.poller]? = some m ∧ IsTimer m.poller sl.node
    ∧ Placed s.looks (armed sl.poller) m sl
  apart : (s.sleeps.map fun sl => (sl.poller, sl.node)).Nodup
  looked : ∀ look ∈ s.looks, look.sessions ≤ s.sleeps.length ∧ ∀ sl ∈ s.sleeps.take look.sessions,
    sl.poller = look.poller → ∀ d, armed sl.poller sl.node = some d → ¬ timeoutCmp d look.time < 0
  counted : ∀ k m n, s.pollers[k]? = some m → IsTimer m.poller n → s.counts k n = (handed m.poller.log).count n
  results : ∀ result ∈ s.queue ++ s.inHand, ∃ m, s.pollers[result.1]? = some m
    ∧ ∀ n state error, result.2 = .addResult n state error →
      n < m.poller.count ∧ ((m.poller.node n).operation = .timer → state = some .error)
  handled : ∀ h ∈ s.handled, h.2.2 = .complete ∧ ∃ sl ∈ s.sleeps, sl.poller = h.1 ∧ sl.node = h.2.1

theorem inv_started (fds : List Descriptors) (maxOpenFiles : Nat) :
    Inv (State.started fds maxOpenFiles) fun _ _ => none where
  timed := by
    intro k m hm
    obtain ⟨fds, -, rfl⟩ := List.mem_map.mp (List.mem_of_getElem? hm)
    exact {
      inv := Machine.inv_startedMachine fds maxOpenFiles
      tracked := tracked_startedPoller fds maxOpenFiles
      sent := fun n hn => absurd hn List.not_mem_nil
      hands := fun n hn => absurd hn List.not_mem_nil
      timers := fun n hn => absurd hn (Nat.not_lt_zero n) }
  owned := by
    intro k m n hm htimer
    obtain ⟨fds, -, rfl⟩ := List.mem_map.mp (List.mem_of_getElem? hm)
    exact absurd htimer.1 (Nat.not_lt_zero n)
  placed := fun _ hsl => absurd hsl List.not_mem_nil
  apart := List.nodup_nil
  looked := fun _ hlook => absurd hlook List.not_mem_nil
  counted := by
    intro k m n hm htimer
    obtain ⟨fds, -, rfl⟩ := List.mem_map.mp (List.mem_of_getElem? hm)
    exact absurd htimer.1 (Nat.not_lt_zero n)
  results := fun _ hresult => absurd hresult List.not_mem_nil
  handled := fun _ hh => absurd hh List.not_mem_nil

/-- The state after a step of a poller, with the session that was born and the look that was taken. -/
def State.after (k : Nat) (m next : Machine) (born : Option Sleep) (looks : List Look) (s : State) : State :=
  { s.advance k m next with sleeps := s.sleeps ++ born.toList, looks := s.looks ++ looks }

structure Stepped (s : State) (armed : Nat → Nat → Option Timespec) (k : Nat) (m next : Machine)
    (armed' : Nat → Option Timespec) (fresh : Nat → Prop) (added : List Action) (born : Option Sleep)
    (looks : List Look) : Prop where
  poller : s.pollers[k]? = some m
  advance : Advance m next (armed k) armed' fresh added
  idle : ∀ n, fresh n → added = []
  births : ∀ n, fresh n → ∃ sl, born = some sl ∧ sl.poller = k ∧ sl.node = n
  born : ∀ sl, born = some sl → sl.poller = k ∧ m.poller.count ≤ sl.node ∧ IsTimer next.poller sl.node
    ∧ armed' sl.node = some sl.deadline
  fired : ∀ n batch, IsTimer m.poller n → m.pc = .timeout batch → armed' n ≠ armed k n →
    ⟨k, batch.now, s.sleeps.length⟩ ∈ looks
  looks : ∀ look ∈ looks, look.poller = k ∧ look.sessions = s.sleeps.length
    ∧ ∀ n d, armed' n = some d → ¬ timeoutCmp d look.time < 0

section Stepped

variable {s : State} {armed : Nat → Nat → Option Timespec} {k : Nat} {m next : Machine}
  {armed' : Nat → Option Timespec} {fresh : Nat → Prop} {added : List Action} {born : Option Sleep}
  {looks : List Look}

theorem Stepped.pollers (hs : Stepped s armed k m next armed' fresh added born looks) {j : Nat} {m' : Machine} :
    (s.after k m next born looks).pollers[j]? = some m'
      ↔ (j = k ∧ next = m') ∨ (j ≠ k ∧ s.pollers[j]? = some m') := by
  have hlt : k < s.pollers.length := (List.getElem?_eq_some_iff.mp hs.poller).1
  change (s.pollers.set k next)[j]? = some m' ↔ _
  rw [List.getElem?_set]
  by_cases hj : k = j
  · subst hj
    simp [hlt]
  · simp [hj, Ne.symm hj]

theorem Stepped.pollers_self (hs : Stepped s armed k m next armed' fresh added born looks) :
    (s.after k m next born looks).pollers[k]? = some next := hs.pollers.mpr (.inl ⟨rfl, rfl⟩)

theorem Stepped.isTimer (hs : Stepped s armed k m next armed' fresh added born looks) {n : Nat}
    (h : IsTimer next.poller n) (hlt : n < m.poller.count) : IsTimer m.poller n := by
  obtain h | ⟨hle, -⟩ := hs.advance.fresh n h
  · exact h
  · omega

theorem Stepped.placed (hs : Stepped s armed k m next armed' fresh added born looks) {sl : Sleep}
    (hsl : sl.poller = k) (htimer : IsTimer m.poller sl.node) (h : Placed s.looks (armed k) m sl) :
    Placed (s.looks ++ looks) armed' next sl := by
  obtain ⟨-, hstep⟩ := hs.advance.timers sl.node htimer
  have hlog : sl.node ∈ handed m.poller.log → sl.node ∈ handed next.poller.log := by
    intro hmem
    rw [hs.advance.log, handed_append]
    exact List.mem_append_left _ hmem
  have hold : (∃ look ∈ s.looks, look.poller = sl.poller ∧ timeoutCmp sl.deadline look.time < 0) →
      ∃ look ∈ s.looks ++ looks, look.poller = sl.poller ∧ timeoutCmp sl.deadline look.time < 0 := by
    rintro ⟨look, hlook, hboth⟩
    exact ⟨look, List.mem_append_left _ hlook, hboth⟩
  cases hstep with
  | quiet hsame hheld hquiet =>
      rw [Placed, hsame]
      obtain hwaits | ⟨hnone, hplace, hlook⟩ := h
      · exact .inl hwaits
      · exact .inr ⟨hnone, hplace.imp hheld.mpr hlog, hold hlook⟩
  | fired batch d hpc harmed hdue hgone hheld hnew =>
      obtain hwaits | ⟨hnone, -⟩ := h
      · obtain rfl : d = sl.deadline := Option.some.inj (harmed.symm.trans hwaits)
        have hlook := hs.fired sl.node batch htimer hpc (by rw [hgone, harmed]; simp)
        exact .inr ⟨hgone, .inl hheld, _, List.mem_append_right _ hlook, hsl.symm, hdue⟩
      · rw [harmed] at hnone
        cases hnone
  | handed hsame hbefore hafter hnew =>
      rw [Placed, hsame]
      obtain hwaits | ⟨hnone, -, hlook⟩ := h
      · exact .inl hwaits
      · refine .inr ⟨hnone, .inr ?_, hold hlook⟩
        rw [hs.advance.log, handed_append, hnew]
        exact List.mem_append_right _ List.mem_cons_self

theorem Stepped.not_due (hs : Stepped s armed k m next armed' fresh added born looks) {n : Nat} {d : Timespec}
    (htimer : IsTimer m.poller n) (h : armed' n = some d) : armed k n = some d := by
  obtain ⟨-, hstep⟩ := hs.advance.timers n htimer
  cases hstep with
  | quiet hsame hheld hquiet => exact hsame.symm.trans h
  | fired batch d' hpc harmed hdue hgone hheld hnew =>
      rw [hgone] at h
      cases h
  | handed hsame hbefore hafter hnew => exact hsame.symm.trans h

/-- A result of a timer says that it has expired. -/
theorem Stepped.result (hs : Stepped s armed k m next armed' fresh added born looks) {n : Nat}
    {state : Option ResultState} {error : Option Int} (h : .addResult n state error ∈ added) :
    n < next.poller.count ∧ ((next.poller.node n).operation = .timer → state = some .error) := by
  have hmem : n ∈ handed next.poller.log := by
    rw [hs.advance.log, handed_append]
    exact List.mem_append_right _ (mem_handed.mpr ⟨_, h, rfl⟩)
  have hlt : n < next.poller.count := hs.advance.timed.inv.nodes.bounded n
    (List.mem_append_right _ (List.mem_append_right _ (List.mem_append_right _ hmem)))
  refine ⟨hlt, fun hoperation => ?_⟩
  obtain htimer | ⟨-, hfresh⟩ := hs.advance.fresh n ⟨hlt, hoperation⟩
  · obtain ⟨-, hstep⟩ := hs.advance.timers n htimer
    cases hstep with
    | quiet hsame hheld hquiet => exact absurd rfl (hquiet _ h)
    | fired batch d hpc harmed hdue hgone hheld hnew =>
        rw [hnew] at h
        cases h
    | handed hsame hbefore hafter hnew =>
        rw [hnew] at h
        cases List.mem_singleton.mp h
        rfl
  · rw [hs.idle n hfresh] at h
    cases h

/-- Nothing is known of a node that does not exist. -/
theorem Inv.counts_of_le (h : Inv s armed) (hm : s.pollers[k]? = some m) {n : Nat} (hle : m.poller.count ≤ n) :
    s.counts k n = 0 ∧ (handed m.poller.log).count n = 0 := by
  have hresult : ∀ result ∈ s.queue ++ s.inHand, ¬ isFor k n result = true := by
    rintro ⟨j, action⟩ hresult hfor
    cases action with
    | addResult i state error =>
        simp only [isFor, Bool.and_eq_true, beq_iff_eq] at hfor
        obtain ⟨rfl, rfl⟩ := hfor
        obtain ⟨m', hm', hlt⟩ := h.results _ hresult
        obtain rfl : m = m' := Option.some.inj (hm.symm.trans hm')
        exact not_lt.mpr hle (hlt i state error rfl).1
    | _ => simp [isFor] at hfor
  have hhandled : ∀ x ∈ s.handled, ¬ isHandled k n x = true := by
    intro x hx hfor
    simp only [isHandled, Bool.and_eq_true, beq_iff_eq] at hfor
    obtain ⟨-, sl, hsl, hpoller, hnode⟩ := h.handled x hx
    obtain ⟨m', hm', htimer, -⟩ := h.placed sl hsl
    rw [hpoller, hfor.1, hm] at hm'
    obtain rfl := Option.some.inj hm'
    rw [hnode, hfor.2] at htimer
    exact not_lt.mpr hle htimer.1
  refine ⟨?_, ?_⟩
  · rw [State.counts, List.countP_eq_zero.mpr fun result hq => hresult result (List.mem_append_left _ hq),
      List.countP_eq_zero.mpr fun result hq => hresult result (List.mem_append_right _ hq),
      List.countP_eq_zero.mpr hhandled]
  · rw [List.count_eq_zero]
    intro hmem
    have hlt := (h.timed k m hm).inv.nodes.bounded n
      (List.mem_append_right _ (List.mem_append_right _ (List.mem_append_right _ hmem)))
    exact not_lt.mpr hle hlt

theorem Stepped.counts (hs : Stepped s armed k m next armed' fresh added born looks) (n : Nat) :
    (s.after k m next born looks).counts k n = s.counts k n + (handed added).count n := by
  change (s.queue ++ (newResults m next).map fun action => (k, action)).countP (isFor k n)
    + s.inHand.countP (isFor k n) + s.handled.countP (isHandled k n) = _
  rw [newResults_eq hs.advance.log, List.countP_append, countP_isFor, State.counts]
  omega

theorem counts_after_of_ne {j : Nat} (hne : j ≠ k) (n : Nat) :
    (s.after k m next born looks).counts j n = s.counts j n := by
  change (s.queue ++ (newResults m next).map fun action => (k, action)).countP (isFor j n)
    + s.inHand.countP (isFor j n) + s.handled.countP (isHandled j n) = _
  rw [List.countP_append, countP_isFor_of_ne hne, State.counts, Nat.add_zero]

theorem Inv.after (h : Inv s armed) (hs : Stepped s armed k m next armed' fresh added born looks) :
    Inv (s.after k m next born looks) (Function.update armed k armed') where
  timed := by
    intro j m' hm'
    obtain ⟨rfl, rfl⟩ | ⟨hne, hold⟩ := hs.pollers.mp hm'
    · rw [Function.update_self]
      exact hs.advance.timed
    · rw [Function.update_of_ne hne]
      exact h.timed j m' hold
  owned := by
    intro j m' n hm' htimer
    obtain ⟨rfl, rfl⟩ | ⟨hne, hold⟩ := hs.pollers.mp hm'
    · obtain hbefore | ⟨-, hfresh⟩ := hs.advance.fresh n htimer
      · obtain ⟨sl, hsl, hboth⟩ := h.owned j m n hs.poller hbefore
        exact ⟨sl, List.mem_append_left _ hsl, hboth⟩
      · obtain ⟨sl, rfl, hboth⟩ := hs.births n hfresh
        exact ⟨sl, List.mem_append_right _ List.mem_cons_self, hboth⟩
    · obtain ⟨sl, hsl, hboth⟩ := h.owned j m' n hold htimer
      exact ⟨sl, List.mem_append_left _ hsl, hboth⟩
  placed := by
    intro sl hsl
    obtain hsl | hsl := List.mem_append.mp hsl
    · obtain ⟨m', hm', htimer, hplaced⟩ := h.placed sl hsl
      by_cases hk : sl.poller = k
      · rw [hk, hs.poller] at hm'
        obtain rfl := Option.some.inj hm'
        rw [hk] at hplaced ⊢
        rw [Function.update_self]
        exact ⟨next, hs.pollers_self, (hs.advance.timers sl.node htimer).1, hs.placed hk htimer hplaced⟩
      · rw [Function.update_of_ne hk]
        refine ⟨m', hs.pollers.mpr (.inr ⟨hk, hm'⟩), htimer, hplaced.imp_right ?_⟩
        rintro ⟨hnone, hplace, look, hlook, hboth⟩
        exact ⟨hnone, hplace, look, List.mem_append_left _ hlook, hboth⟩
    · obtain ⟨hk, -, htimer, harmed⟩ := hs.born sl (Option.mem_toList.mp hsl)
      rw [hk, Function.update_self]
      exact ⟨next, hs.pollers_self, htimer, .inl harmed⟩
  apart := by
    change ((s.sleeps ++ born.toList).map fun sl => (sl.poller, sl.node)).Nodup
    rw [List.map_append]
    refine List.Nodup.append h.apart ?_ ?_
    · cases born with
      | none => exact List.nodup_nil
      | some sl => exact List.nodup_singleton _
    · intro pair hold hnew
      obtain ⟨sl, hsl, rfl⟩ := List.mem_map.mp hold
      obtain ⟨sl', hsl', heq⟩ := List.mem_map.mp hnew
      obtain ⟨hk, hle, -⟩ := hs.born sl' (Option.mem_toList.mp hsl')
      obtain ⟨m', hm', htimer, -⟩ := h.placed sl hsl
      obtain ⟨hpoller, hnode⟩ := Prod.mk.inj heq
      rw [← hpoller, hk, hs.poller] at hm'
      obtain rfl := Option.some.inj hm'
      rw [hnode] at hle
      exact not_lt.mpr hle htimer.1
  looked := by
    intro look hlook
    obtain hlook | hlook := List.mem_append.mp hlook
    · obtain ⟨hle, hlooked⟩ := h.looked look hlook
      refine ⟨le_trans hle (by simp [State.after]), fun sl hsl hpoller d hd => ?_⟩
      change sl ∈ (s.sleeps ++ born.toList).take look.sessions at hsl
      rw [List.take_append_of_le_length hle] at hsl
      by_cases hk : sl.poller = k
      · rw [hk, Function.update_self] at hd
        obtain ⟨m', hm', htimer, -⟩ := h.placed sl (List.mem_of_mem_take hsl)
        rw [hk, hs.poller] at hm'
        obtain rfl := Option.some.inj hm'
        exact hlooked sl hsl hpoller d (hk ▸ hs.not_due htimer hd)
      · rw [Function.update_of_ne hk] at hd
        exact hlooked sl hsl hpoller d hd
    · obtain ⟨hk, hsessions, hdue⟩ := hs.looks look hlook
      refine ⟨by rw [hsessions]; simp [State.after], fun sl _ hpoller d hd => ?_⟩
      rw [hpoller, hk, Function.update_self] at hd
      exact hdue sl.node d hd
  counted := by
    intro j m' n hm' htimer
    obtain ⟨rfl, rfl⟩ | ⟨hne, hold⟩ := hs.pollers.mp hm'
    · rw [hs.counts, hs.advance.log, handed_append, List.count_append]
      by_cases hlt : n < m.poller.count
      · rw [h.counted j m n hs.poller (hs.isTimer htimer hlt)]
      · obtain ⟨hzero, hzero'⟩ := h.counts_of_le hs.poller (not_lt.mp hlt)
        rw [hzero, hzero']
    · rw [counts_after_of_ne hne]
      exact h.counted j m' n hold htimer
  results := by
    intro result hresult
    have hcases : result ∈ s.queue ++ s.inHand ∨ result ∈ (newResults m next).map fun action => (k, action) := by
      change result ∈ (s.queue ++ (newResults m next).map fun action => (k, action)) ++ s.inHand at hresult
      simp only [List.mem_append] at hresult ⊢
      tauto
    obtain hbefore | hnew := hcases
    · obtain ⟨m', hm', hgood⟩ := h.results result hbefore
      by_cases hk : result.1 = k
      · rw [hk, hs.poller] at hm'
        obtain rfl := Option.some.inj hm'
        refine ⟨next, by rw [hk]; exact hs.pollers_self, fun n state error heq => ?_⟩
        obtain ⟨hlt, hstate⟩ := hgood n state error heq
        have hlt' := lt_of_lt_of_le hlt hs.advance.count
        exact ⟨hlt', fun hoperation => hstate (hs.isTimer ⟨hlt', hoperation⟩ hlt).2⟩
      · exact ⟨m', hs.pollers.mpr (.inr ⟨hk, hm'⟩), hgood⟩
    · obtain ⟨action, haction, rfl⟩ := List.mem_map.mp hnew
      rw [newResults_eq hs.advance.log] at haction
      refine ⟨next, hs.pollers_self, fun n state error heq => ?_⟩
      obtain rfl : action = .addResult n state error := heq
      exact hs.result (List.mem_of_mem_filter haction)
  handled := by
    intro x hx
    obtain ⟨hcomplete, sl, hsl, hboth⟩ := h.handled x hx
    exact ⟨hcomplete, sl, List.mem_append_left _ hsl, hboth⟩

end Stepped

def Deferred (s : State) : Input → Prop
  | .thread k _ => ∀ m ∈ s.pollers[k]?, DeferredAt m.poller m.pc
  | _ => True

instance decidableDeferred (s : State) : (input : Input) → Decidable (Deferred s input)
  | .thread k _ => inferInstanceAs (Decidable (∀ m ∈ s.pollers[k]?, DeferredAt m.poller m.pc))
  | .sleep _ _ => .isTrue trivial
  | .connection _ => .isTrue trivial
  | .take => .isTrue trivial
  | .handle _ => .isTrue trivial

/-- In each step the thread of a poller leaves the nodes of its batch alone until their events have come. -/
def Defers (s : State) : List Input → Prop
  | [] => True
  | input :: rest => Deferred s input ∧ ∀ s' ∈ step s input, Defers s' rest

instance decidableDefers : (s : State) → (inputs : List Input) → Decidable (Defers s inputs)
  | _, [] => .isTrue trivial
  | s, input :: rest =>
      have (s' : State) : Decidable (Defers s' rest) := decidableDefers s' rest
      inferInstanceAs (Decidable (Deferred s input ∧ ∀ s' ∈ step s input, Defers s' rest))

section Steps

variable {s s' : State} {armed : Nat → Nat → Option Timespec}

theorem exists_of_call {m next : Machine} {call : Call} (h : m.step (.call call) = some next) :
    ∃ p, m.poller.call call = some p ∧ { m with poller := p } = next := by
  obtain ⟨p, hp, heq⟩ := Option.map_eq_some_iff.mp h
  exact ⟨p, hp, heq⟩

theorem Inv.sleep (h : Inv s armed) {microseconds : Nat} {now : Timespec} (hstep : s.sleep microseconds now = some s') :
    ∃ armed', Inv s' armed' := by
  rw [State.sleep] at hstep
  dsimp only at hstep
  generalize s.sleeps.length % 2 ^ 32 % s.pollers.length = k at hstep
  obtain ⟨m, hm, hnext⟩ := Option.bind_eq_some_iff.mp hstep
  obtain ⟨next, hcall, rfl⟩ := Option.map_eq_some_iff.mp hnext
  obtain ⟨p, hp, rfl⟩ := exists_of_call hcall
  have htimed := h.timed k m hm
  obtain rfl : m.poller.addTimer (timerValue microseconds) now = p := Option.some.inj hp
  have hframe := callFrame_addTimer (timerValue microseconds) now m.poller
  have hadvance := htimed.call (fun _ _ _ => by simp) hp (htimed.inv.nodes.addTimer _ _).2 hframe
  obtain ⟨hcount, hoperation⟩ := addTimer_node (timerValue microseconds) now m.poller
  have hstepped : Stepped s armed k m { m with poller := m.poller.addTimer (timerValue microseconds) now }
      (m.poller.armedAfter (armed k) (.call (.addTimer (timerValue microseconds) now))) (· = m.poller.count) []
      (some ⟨microseconds, now, k, m.poller.count⟩) [] :=
    { poller := hm
      advance := hadvance
      idle := fun _ _ => rfl
      births := fun n hn => ⟨_, rfl, rfl, hn.symm⟩
      born := fun sl hsl => by
        obtain rfl := Option.some.inj hsl
        exact ⟨rfl, le_rfl, ⟨by rw [hcount]; exact Nat.lt_succ_self _, hoperation⟩, Function.update_self ..⟩
      fired := fun n _ htimer _ hne => absurd (htimed.armedAfter_call htimer _ fun _ _ _ => by simp) hne
      looks := fun _ hlook => absurd hlook List.not_mem_nil }
  have hafter := h.after hstepped
  rw [State.after, List.append_nil] at hafter
  exact ⟨_, hafter⟩

theorem connection_frame {m : Machine} {held : List Nat} {p : Poller} {call : Call} {fd : Int}
    (hfd : connectionFd call = some fd) (hnodes : Nodes m.poller held) (hcall : m.poller.call call = some p) :
    (∀ data timeout now, call ≠ .mod data timeout now) ∧ Keeps m.poller p
      ∧ CallFrame (fun _ => False) m.poller p := by
  cases call with
  | add data timeout now =>
      obtain ⟨result, hresult, rfl⟩ := Option.map_eq_some_iff.mp hcall
      exact ⟨fun _ _ _ => by simp, (hnodes.add hresult).2, callFrame_add _ hresult⟩
  | del fd =>
      obtain ⟨result, hresult, rfl⟩ := Option.map_eq_some_iff.mp hcall
      exact ⟨fun _ _ _ => by simp, (hnodes.del hresult).2, callFrame_del _ hnodes.running hresult⟩
  | mod data timeout now => cases hfd
  | setTimeout fd timeout now =>
      obtain ⟨result, hresult, rfl⟩ := Option.map_eq_some_iff.mp hcall
      exact ⟨fun _ _ _ => by simp, (hnodes.setTimeout hresult).2, callFrame_setTimeout _ hresult⟩
  | addTimer value now => cases hfd

theorem Inv.connection (h : Inv s armed) {call : Call} (hstep : s.connection call = some s') :
    ∃ armed', Inv s' armed' := by
  obtain ⟨fd, hfd, hrest⟩ := Option.bind_eq_some_iff.mp hstep
  dsimp only at hrest
  generalize (Communicator.unsignedOfInt fd).toNat % s.pollers.length = k at hrest
  obtain ⟨m, hm, hnext⟩ := Option.bind_eq_some_iff.mp hrest
  obtain ⟨next, hcall, rfl⟩ := Option.map_eq_some_iff.mp hnext
  obtain ⟨p, hp, rfl⟩ := exists_of_call hcall
  have htimed := h.timed k m hm
  obtain ⟨hmod, hkeeps, hframe⟩ := connection_frame hfd htimed.inv.nodes hp
  have hstepped : Stepped s armed k m { m with poller := p } (m.poller.armedAfter (armed k) (.call call))
      (fun _ => False) [] none [] :=
    { poller := hm
      advance := htimed.call hmod hp hkeeps hframe
      idle := fun _ _ => rfl
      births := fun _ hfalse => hfalse.elim
      born := fun _ hsl => by cases hsl
      fired := fun n _ htimer _ hne => absurd (htimed.armedAfter_call htimer call hmod) hne
      looks := fun _ hlook => absurd hlook List.not_mem_nil }
  have hafter := h.after hstepped
  rw [State.after, List.append_nil, Option.toList_none, List.append_nil] at hafter
  exact ⟨_, hafter⟩

theorem armedAfter_of_timeout {m : Machine} {io : Io} {batch : Batch} (hpc : m.pc = .timeout batch)
    (armed : Nat → Option Timespec) :
    m.armedAfter armed (.thread io) = m.poller.armedAfter armed (.handleTimeout batch.now) := by
  rw [Machine.armedAfter, hpc]

theorem Inv.thread (h : Inv s armed) {k : Nat} {io : Io} (hdeferred : Deferred s (.thread k io))
    (hstep : s.thread k io = some s') : ∃ armed', Inv s' armed' := by
  obtain ⟨m, hm, hnext⟩ := Option.bind_eq_some_iff.mp hstep
  obtain ⟨next, hthread, rfl⟩ := Option.map_eq_some_iff.mp hnext
  obtain ⟨result, hresult, rfl⟩ := Option.map_eq_some_iff.mp hthread
  obtain ⟨added, hadvance⟩ := (h.timed k m hm).threadStep (hdeferred m hm) hresult
  have hstepped : Stepped s armed k m { pc := result.1, poller := result.2 }
      (m.armedAfter (armed k) (.thread io)) (fun _ => False) added none (lookOf k s.sleeps.length m.pc) :=
    { poller := hm
      advance := hadvance
      idle := fun _ hfalse => hfalse.elim
      births := fun _ hfalse => hfalse.elim
      born := fun _ hsl => by cases hsl
      fired := fun _ batch _ hpc _ => by
        rw [hpc]
        exact List.mem_cons_self
      looks := fun look hlook => by
        cases hpc : m.pc with
        | timeout batch =>
            rw [hpc] at hlook
            obtain rfl := List.mem_singleton.mp hlook
            refine ⟨rfl, rfl, fun n d hd => ?_⟩
            rw [armedAfter_of_timeout hpc] at hd
            have hfilter := (Option.filter_eq_some_iff.mp hd).2
            simpa using hfilter
        | _ =>
            rw [hpc] at hlook
            exact absurd hlook List.not_mem_nil }
  have hafter := h.after hstepped
  rw [State.after, Option.toList_none, List.append_nil] at hafter
  exact ⟨_, hafter⟩

theorem Inv.hand (h : Inv s armed) {queue inHand : List (Nat × Action)} {handled : List (Nat × Nat × SleepState)}
    (hresults : ∀ result ∈ queue ++ inHand, result ∈ s.queue ++ s.inHand)
    (hcounted : ∀ k m n, s.pollers[k]? = some m → IsTimer m.poller n →
      State.counts k n { s with queue := queue, inHand := inHand, handled := handled } = s.counts k n)
    (hhandled : ∀ x ∈ handled, x ∈ s.handled ∨ x.2.2 = .complete ∧ ∃ sl ∈ s.sleeps, sl.poller = x.1 ∧ sl.node = x.2.1) :
    Inv { s with queue := queue, inHand := inHand, handled := handled } armed where
  timed := h.timed
  owned := h.owned
  placed := h.placed
  apart := h.apart
  looked := h.looked
  counted := fun k m n hm htimer => (hcounted k m n hm htimer).trans (h.counted k m n hm htimer)
  results := fun result hresult => h.results result (hresults result hresult)
  handled := fun x hx => (hhandled x hx).elim (h.handled x) id

theorem Inv.take (h : Inv s armed) (hstep : s.take = some s') : Inv s' armed := by
  unfold State.take at hstep
  split at hstep
  · cases hstep
  · next result rest hqueue =>
      cases hstep
      refine h.hand ?_ ?_ fun x hx => .inl hx
      · intro other hother
        rw [hqueue]
        simp only [List.mem_append, List.mem_cons, List.not_mem_nil, or_false] at hother ⊢
        tauto
      · intro k m n _ _
        change rest.countP (isFor k n) + (s.inHand ++ [result]).countP (isFor k n)
          + s.handled.countP (isHandled k n) = _
        rw [State.counts, hqueue, List.countP_append, List.countP_cons, List.countP_cons, List.countP_nil]
        omega

theorem Inv.complete (h : Inv s armed) {result : Nat × Action} (hmem : result ∈ s.queue ++ s.inHand)
    {x : Nat × Nat × SleepState} (hx : s.handleSleepResult result = some x) :
    x.2.2 = .complete ∧ ∃ sl ∈ s.sleeps, sl.poller = x.1 ∧ sl.node = x.2.1 := by
  obtain ⟨j, action⟩ := result
  obtain ⟨m, hm, hgood⟩ := h.results _ hmem
  cases action with
  | addResult n state error =>
      obtain ⟨m', hm', hif⟩ := Option.bind_eq_some_iff.mp hx
      obtain rfl : m = m' := Option.some.inj (hm.symm.trans hm')
      obtain ⟨hlt, hstate⟩ := hgood n state error rfl
      split_ifs at hif with hoperation hstopped
      · rw [hstate hoperation] at hstopped
        cases hstopped
      · obtain rfl := Option.some.inj hif
        exact ⟨rfl, h.owned j m n hm ⟨hlt, hoperation⟩⟩
  | _ => cases hx

/-- A result of a timer makes one call of `handle`, and any other result none for it. -/
theorem countP_handleSleepResult {k n : Nat} {m : Machine} (hm : s.pollers[k]? = some m)
    (htimer : IsTimer m.poller n) (result : Nat × Action) :
    (s.handleSleepResult result).toList.countP (isHandled k n) = if isFor k n result then 1 else 0 := by
  obtain ⟨j, action⟩ := result
  cases action with
  | addResult i state error =>
      by_cases hfor : j = k ∧ i = n
      · obtain ⟨rfl, rfl⟩ := hfor
        simp [State.handleSleepResult, isFor, isHandled, hm, htimer.2]
      · have hother : isFor k n (j, .addResult i state error) = false := by
          rw [isFor, Bool.and_eq_false_iff]
          by_cases hj : j = k
          · exact .inr (beq_eq_false_iff_ne.mpr fun hi => hfor ⟨hj, hi⟩)
          · exact .inl (beq_eq_false_iff_ne.mpr hj)
        rw [hother, if_neg Bool.false_ne_true, List.countP_eq_zero]
        intro x hx
        obtain ⟨m', -, hif⟩ := Option.bind_eq_some_iff.mp (Option.mem_toList.mp hx)
        split_ifs at hif
        all_goals
          obtain rfl := Option.some.inj hif
          simpa [isHandled] using fun hj hi => hfor ⟨hj, hi⟩
  | _ => rfl

theorem Inv.handle (h : Inv s armed) {j : Nat} (hstep : s.handle j = some s') : Inv s' armed := by
  obtain ⟨result, hresult, rfl⟩ := Option.map_eq_some_iff.mp hstep
  obtain ⟨hlt, rfl⟩ := List.getElem?_eq_some_iff.mp hresult
  have hmem : s.inHand[j] ∈ s.queue ++ s.inHand := List.mem_append_right _ (List.getElem_mem hlt)
  refine h.hand ?_ ?_ ?_
  · intro other hother
    exact List.mem_append.mpr ((List.mem_append.mp hother).imp_right List.mem_of_mem_eraseIdx)
  · intro k m n hm htimer
    have hinHand := (List.getElem_cons_eraseIdx_perm hlt).countP_eq (isFor k n)
    rw [List.countP_cons] at hinHand
    change s.queue.countP (isFor k n) + (s.inHand.eraseIdx j).countP (isFor k n)
      + (s.handled ++ (s.handleSleepResult s.inHand[j]).toList).countP (isHandled k n) = _
    rw [List.countP_append, countP_handleSleepResult hm htimer, State.counts]
    omega
  · intro x hx
    exact (List.mem_append.mp hx).imp_right fun hnew => h.complete hmem (Option.mem_toList.mp hnew)

theorem Inv.step (h : Inv s armed) {input : Input} (hdeferred : Deferred s input)
    (hstep : SleepSession.step s input = some s') : ∃ armed', Inv s' armed' := by
  cases input with
  | sleep microseconds now => exact h.sleep hstep
  | connection call => exact h.connection hstep
  | thread k io => exact h.thread hdeferred hstep
  | take => exact ⟨armed, h.take hstep⟩
  | handle j => exact ⟨armed, h.handle hstep⟩

theorem Inv.replay {inputs : List Input} (h : Inv s armed) (hdefers : Defers s inputs)
    (hrun : SleepSession.run inputs s = some s') : ∃ armed', Inv s' armed' := by
  induction inputs generalizing s armed with
  | nil =>
      obtain rfl : s = s' := Option.some.inj hrun
      exact ⟨armed, h⟩
  | cons input inputs ih =>
      obtain ⟨next, hstep, hrest⟩ := Option.bind_eq_some_iff.mp hrun
      obtain ⟨armed', hnext⟩ := h.step hdefers.1 hstep
      exact ih hnext (hdefers.2 next hstep) hrest

end Steps

def Input.Clocked : Input → Prop
  | .sleep _ now => Normal now
  | .thread _ io => Normal io.now
  | _ => True

structure Clocked (s : State) : Prop where
  sleeps : ∀ sl ∈ s.sleeps, Normal sl.since
  looks : ∀ look ∈ s.looks, Normal look.time
  batches : ∀ m ∈ s.pollers, ∀ batch ∈ batchOf m.pc, Normal batch.now

section Clock

variable {s s' : State} {k : Nat} {m next : Machine}

theorem clocked_started (fds : List Descriptors) (maxOpenFiles : Nat) : Clocked (State.started fds maxOpenFiles) where
  sleeps := fun _ hsl => absurd hsl List.not_mem_nil
  looks := fun _ hlook => absurd hlook List.not_mem_nil
  batches := by
    intro m hm batch hbatch
    obtain ⟨fds, -, rfl⟩ := List.mem_map.mp hm
    cases hbatch

theorem Clocked.after (h : Clocked s) (k : Nat) (m next : Machine) (born : Option Sleep) (looks : List Look)
    (hnext : ∀ batch ∈ batchOf next.pc, Normal batch.now) (hborn : ∀ sl ∈ born, Normal sl.since)
    (hlooks : ∀ look ∈ looks, Normal look.time) : Clocked (s.after k m next born looks) where
  sleeps := fun sl hsl =>
    (List.mem_append.mp hsl).elim (h.sleeps sl) fun hmem => hborn sl (Option.mem_toList.mp hmem)
  looks := fun look hlook => (List.mem_append.mp hlook).elim (h.looks look) (hlooks look)
  batches := by
    intro m' hm'
    obtain hold | rfl := List.mem_or_eq_of_mem_set hm'
    · exact h.batches m' hold
    · exact hnext

theorem Clocked.step (h : Clocked s) {input : Input} (hinput : input.Clocked)
    (hstep : SleepSession.step s input = some s') : Clocked s' := by
  cases input with
  | sleep microseconds now =>
      obtain ⟨m, hm, hnext⟩ := Option.bind_eq_some_iff.mp hstep
      obtain ⟨next, hcall, rfl⟩ := Option.map_eq_some_iff.mp hnext
      obtain ⟨p, -, rfl⟩ := exists_of_call hcall
      have hafter := h.after (s.sleeps.length % 2 ^ 32 % s.pollers.length) m { m with poller := p }
        (some ⟨microseconds, now, s.sleeps.length % 2 ^ 32 % s.pollers.length, m.poller.count⟩) []
        (h.batches m (List.mem_of_getElem? hm)) (fun sl hsl => by obtain rfl := Option.some.inj hsl; exact hinput)
        fun _ hlook => absurd hlook List.not_mem_nil
      rw [State.after, List.append_nil] at hafter
      exact hafter
  | connection call =>
      obtain ⟨fd, -, hrest⟩ := Option.bind_eq_some_iff.mp hstep
      obtain ⟨m, hm, hnext⟩ := Option.bind_eq_some_iff.mp hrest
      obtain ⟨next, hcall, rfl⟩ := Option.map_eq_some_iff.mp hnext
      obtain ⟨p, -, rfl⟩ := exists_of_call hcall
      have hafter := h.after ((Communicator.unsignedOfInt fd).toNat % s.pollers.length) m { m with poller := p }
        none [] (h.batches m (List.mem_of_getElem? hm)) (fun _ hsl => by cases hsl)
        fun _ hlook => absurd hlook List.not_mem_nil
      rw [State.after, List.append_nil, Option.toList_none, List.append_nil] at hafter
      exact hafter
  | thread k io =>
      obtain ⟨m, hm, hnext⟩ := Option.bind_eq_some_iff.mp hstep
      obtain ⟨next, hthread, rfl⟩ := Option.map_eq_some_iff.mp hnext
      obtain ⟨result, hresult, rfl⟩ := Option.map_eq_some_iff.mp hthread
      have hbatches := h.batches m (List.mem_of_getElem? hm)
      have hnext : ∀ later ∈ batchOf result.1, Normal later.now := by
        intro later hlater
        obtain hnow | ⟨batch, hbatch, hnow⟩ := Machine.now_of_threadStep hresult later hlater
        · rw [hnow]
          exact hinput
        · rw [hnow]
          exact hbatches batch hbatch
      have hlooks : ∀ look ∈ lookOf k s.sleeps.length m.pc, Normal look.time := by
        intro look hlook
        cases hpc : m.pc with
        | timeout batch =>
            rw [hpc] at hlook
            obtain rfl := List.mem_singleton.mp hlook
            exact hbatches batch (by rw [hpc]; rfl)
        | _ =>
            rw [hpc] at hlook
            exact absurd hlook List.not_mem_nil
      have hafter := h.after k m { pc := result.1, poller := result.2 } none _ hnext (fun _ hsl => by cases hsl) hlooks
      rw [State.after, Option.toList_none, List.append_nil] at hafter
      exact hafter
  | take =>
      unfold SleepSession.step State.take at hstep
      dsimp only at hstep
      split at hstep
      · cases hstep
      · cases hstep
        exact ⟨h.sleeps, h.looks, h.batches⟩
  | handle j =>
      obtain ⟨result, -, rfl⟩ := Option.map_eq_some_iff.mp hstep
      exact ⟨h.sleeps, h.looks, h.batches⟩

theorem Clocked.replay {inputs : List Input} (h : Clocked s) (hinputs : ∀ input ∈ inputs, input.Clocked)
    (hrun : SleepSession.run inputs s = some s') : Clocked s' :=
  Replay.replay_preserves (fun input hinput _ _ hs hstep => hs.step (hinputs input hinput) hstep) h hrun

end Clock

/-- Each session is in one place. It is handled as complete, after its time has passed, and a look after that time
finds it. -/
structure Slept (s : State) : Prop where
  apart : (s.sleeps.map fun sl => (sl.poller, sl.node)).Nodup
  once : ∀ sl ∈ s.sleeps, s.places sl = 1
  complete : ∀ x ∈ s.handled, x.2.2 = .complete ∧ ∃ sl ∈ s.sleeps, sl.poller = x.1 ∧ sl.node = x.2.1
  notEarly : ∀ sl ∈ s.sleeps, ¬ s.Waits sl → ∃ look ∈ s.looks, look.poller = sl.poller
    ∧ nanos sl.since + sl.microseconds * 1000 < nanos look.time
  notLate : ∀ look ∈ s.looks, ∀ sl ∈ s.sleeps.take look.sessions, sl.poller = look.poller →
    nanos sl.since + sl.microseconds * 1000 < nanos look.time → ¬ s.Waits sl

theorem Inv.slept {s : State} {armed : Nat → Nat → Option Timespec} (h : Inv s armed) (hclocked : Clocked s) :
    Slept s where
  apart := h.apart
  once := by
    intro sl hsl
    obtain ⟨m, hm, htimer, hplaced⟩ := h.placed sl hsl
    have hplace : armed sl.poller sl.node ≠ none ∨ sl.node ∈ held m.pc ∨ sl.node ∈ handed m.poller.log := by
      obtain hwaits | ⟨-, hplace, -⟩ := hplaced
      · exact .inl (by simp [hwaits])
      · exact .inr hplace
    have hone := (h.timed sl.poller m hm).count_eq_one hplace
    rw [State.places, hm, h.counted sl.poller m sl.node hm htimer]
    exact hone
  complete := h.handled
  notEarly := by
    intro sl hsl hwaits
    obtain ⟨m, hm, htimer, harmed | ⟨-, -, look, hlook, hpoller, hdue⟩⟩ := h.placed sl hsl
    · refine absurd ⟨m, hm, ?_⟩ hwaits
      by_contra hout
      rw [(h.timed sl.poller m hm).tracked.armed sl.node, if_neg hout] at harmed
      cases harmed
    · rw [timeoutCmp_lt_iff_nanos (Sleep.normal_deadline (hclocked.sleeps sl hsl)) (hclocked.looks look hlook),
        sl.nanos_deadline] at hdue
      exact ⟨look, hlook, hpoller, hdue⟩
  notLate := by
    rintro look hlook sl hsl hpoller hpassed ⟨m, hm, hmem⟩
    have hin := List.mem_of_mem_take hsl
    obtain ⟨m', hm', htimer, hplaced⟩ := h.placed sl hin
    obtain rfl := Option.some.inj (hm.symm.trans hm')
    have harmed : armed sl.poller sl.node = some sl.deadline := by
      obtain harmed | ⟨hnone, -⟩ := hplaced
      · exact harmed
      · rw [(h.timed sl.poller m hm).tracked.armed sl.node, if_pos hmem] at hnone
        cases hnone
    refine (h.looked look hlook).2 sl hsl hpoller _ harmed ?_
    rw [timeoutCmp_lt_iff_nanos (Sleep.normal_deadline (hclocked.sleeps sl hin)) (hclocked.looks look hlook),
      sl.nanos_deadline]
    exact hpassed

/-- Whatever the order of the steps, every session that sleeps is handled at most once, as complete, and neither
before its time has passed nor after a look of its poller that comes later. -/
theorem slept_of_run {fds : List Descriptors} {maxOpenFiles : Nat} {inputs : List Input} {s : State}
    (hclocked : ∀ input ∈ inputs, input.Clocked) (hdefers : Defers (State.started fds maxOpenFiles) inputs)
    (hrun : run inputs (State.started fds maxOpenFiles) = some s) : Slept s := by
  obtain ⟨armed, hinv⟩ := (inv_started fds maxOpenFiles).replay hdefers hrun
  exact hinv.slept ((clocked_started fds maxOpenFiles).replay hclocked hrun)

/-- A second and a half, with a look that comes too early and one that finds it, while another session sleeps in
the other poller. -/
def sleepRun : List Input :=
  [.sleep 1500000 ⟨10, 900000000⟩, .sleep 7 ⟨11, 0⟩, .thread 0 (readyIo []),
    .thread 0 { readyIo [4] with now := ⟨12, 400000000⟩ }, .thread 0 (readyIo []), .thread 0 (readyIo []),
    .thread 0 (readyIo []), .thread 0 (readyIo []), .thread 0 (readyIo []), .thread 0 (readyIo []),
    .thread 0 { readyIo [4] with now := ⟨12, 400000001⟩ }, .thread 0 (readyIo []), .thread 0 (readyIo []),
    .thread 0 (readyIo []), .thread 0 (readyIo []), .take, .handle 0]

theorem slept_sleepRun :
    ∃ s, run sleepRun (State.started [someDescriptors, someDescriptors] 0) = some s
      ∧ s.handled = [(0, 0, .complete)] ∧ s.looks.length = 2 ∧ Slept s := by
  have hseen : (run sleepRun (State.started [someDescriptors, someDescriptors] 0)).map
      (fun s => (s.handled, s.looks.length)) = some ([(0, 0, .complete)], 2) := by decide
  obtain ⟨s, hs, hboth⟩ := Option.map_eq_some_iff.mp hseen
  obtain ⟨hhandled, hlooks⟩ := Prod.mk.inj hboth
  refine ⟨s, hs, hhandled, hlooks, slept_of_run ?_ ?_ hs⟩
  · simp [sleepRun, Input.Clocked, Normal, readyIo]
  · decide

end WorkflowModel.Kernel.SleepSession
