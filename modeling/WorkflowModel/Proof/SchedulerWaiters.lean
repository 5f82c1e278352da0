import WorkflowModel.Proof.SchedulerRuns
import Mathlib.Data.List.Perm.Basic
import Mathlib.Algebra.Order.BigOperators.Group.Finset

/-!
# Threads that wait, and what they are owed

A free connection of a group is spoken for if a woken thread will come and take it: a woken thread of the
group takes any, a woken thread of a target takes one of its own target. So a group whose threads sleep owes
them nothing as long as it has no more free connections than are spoken for. The woken threads of a target
count only up to the free connections of the target.
-/

namespace WorkflowModel.Kernel.CommScheduler

open WorkflowModel BinaryHeap Finset

theorem sleeping_cons (w : Waiter) (rest : List Waiter) :
    sleeping (w :: rest) = sleeping rest + if w.wake = .asleep then 1 else 0 := by
  simp [sleeping, List.countP_cons]

theorem woken_cons (w : Waiter) (rest : List Waiter) :
    woken (w :: rest) = woken rest + if w.wake = .asleep then 0 else 1 := by
  by_cases h : w.wake = .asleep <;> simp [woken, h]

theorem sleeping_add_woken (waiters : List Waiter) : sleeping waiters + woken waiters = waiters.length := by
  induction waiters with
  | nil => rfl
  | cons w rest ih =>
      rw [sleeping_cons, woken_cons, List.length_cons]
      split_ifs <;> omega

theorem length_condSignal (pick : Nat) (waiters : List Waiter) :
    (condSignal pick waiters).length = waiters.length := by
  induction waiters generalizing pick with
  | nil => rfl
  | cons w rest ih =>
      rw [condSignal]
      split_ifs <;> simp [ih]

theorem sleeping_condSignal (pick : Nat) (waiters : List Waiter) :
    sleeping (condSignal pick waiters) = sleeping waiters - 1 := by
  induction waiters generalizing pick with
  | nil => rfl
  | cons w rest ih =>
      rw [condSignal]
      split_ifs with hasleep hpick
      · simp [sleeping_cons, hasleep]
      · rw [sleeping_cons, sleeping_cons, ih]
        simp only [hasleep, if_true]
        omega
      · rw [sleeping_cons, sleeping_cons, ih]
        simp [hasleep]

theorem woken_condSignal (pick : Nat) (waiters : List Waiter) :
    woken (condSignal pick waiters) = woken waiters + min 1 (sleeping waiters) := by
  have hbefore := sleeping_add_woken waiters
  have hafter := sleeping_add_woken (condSignal pick waiters)
  rw [sleeping_condSignal, length_condSignal] at hafter
  omega

theorem sleeping_eraseIdx {waiters : List Waiter} {i : Nat} {w : Waiter} (h : waiters[i]? = some w) :
    sleeping waiters = sleeping (waiters.eraseIdx i) + if w.wake = .asleep then 1 else 0 := by
  obtain ⟨hi, rfl⟩ := List.getElem?_eq_some_iff.1 h
  rw [← sleeping_cons]
  exact (List.getElem_cons_eraseIdx_perm hi).symm.countP_eq _

theorem counts_eraseIdx {waiters : List Waiter} {i : Nat} {w : Waiter} (h : waiters[i]? = some w)
    (hwoken : w.wake ≠ .asleep) :
    sleeping (waiters.eraseIdx i) = sleeping waiters ∧ woken (waiters.eraseIdx i) + 1 = woken waiters
      ∧ (waiters.eraseIdx i).length = waiters.length - 1 := by
  have hsleeping := sleeping_eraseIdx h
  have hbefore := sleeping_add_woken waiters
  have hafter := sleeping_add_woken (waiters.eraseIdx i)
  obtain ⟨hi, -⟩ := List.getElem?_eq_some_iff.1 h
  have hlength := List.length_eraseIdx_of_lt hi
  rw [if_neg hwoken] at hsleeping
  exact ⟨by omega, by omega, hlength⟩

/-- A timeout wakes a thread or does nothing. -/
theorem counts_condExpire (i : Nat) (waiters : List Waiter) :
    sleeping (condExpire i waiters) ≤ sleeping waiters ∧ woken waiters ≤ woken (condExpire i waiters)
      ∧ (condExpire i waiters).length = waiters.length := by
  unfold condExpire
  cases h : waiters[i]? with
  | none => exact ⟨le_rfl, le_rfl, rfl⟩
  | some w =>
      by_cases hexpires : w.wake = .asleep ∧ w.timed = true
      · simp only [if_pos hexpires]
        obtain ⟨hi, -⟩ := List.getElem?_eq_some_iff.1 h
        have hset : sleeping (waiters.set i { w with wake := .expired })
            = sleeping (waiters.eraseIdx i) := by
          have hperm := (List.set_perm_cons_eraseIdx hi { w with wake := .expired }).countP_eq
            fun w => decide (w.wake = .asleep)
          rw [List.countP_cons_of_neg (by simp)] at hperm
          exact hperm
        have hget := sleeping_eraseIdx h
        have hbefore := sleeping_add_woken waiters
        have hafter := sleeping_add_woken (waiters.set i { w with wake := .expired })
        rw [List.length_set] at hafter
        exact ⟨by omega, by omega, List.length_set⟩
      · simp only [if_neg hexpires]
        exact ⟨le_rfl, le_rfl, trivial⟩

def SchedTarget.free (target : SchedTarget) : Nat := target.maxLoad - target.curLoad

def SchedTarget.spokenFor (target : SchedTarget) : Nat := min (woken target.waiters) target.free

def SchedGroup.free (group : SchedGroup) : Nat := group.maxLoad - group.curLoad

namespace Scheduler

/-- The free connections of a group that woken threads will take. -/
def spokenFor (s : Scheduler) (g : Nat) : Nat :=
  woken (s.groups g).waiters + ∑ t ∈ s.members g, (s.targets t).spokenFor

/-- `wait_cnt` counts the waiting threads; a target with sleeping threads has no more free connections than
woken threads, and a group with sleeping threads none that is not spoken for. -/
structure Attended (s : Scheduler) : Prop where
  targetCnt : ∀ t, (s.targets t).waitCnt = (s.targets t).waiters.length
  groupCnt : ∀ g, (s.groups g).waitCnt = (s.groups g).waiters.length
  target : ∀ t, 0 < sleeping (s.targets t).waiters → (s.targets t).free ≤ woken (s.targets t).waiters
  group : ∀ g, 0 < sleeping (s.groups g).waiters → (s.groups g).free ≤ s.spokenFor g

section Sums

variable {s s' : Scheduler} {g t : Nat}

theorem Balanced.free_eq_sum (hs : s.Balanced) :
    (s.groups g).free = ∑ t ∈ s.members g, (s.targets t).free := by
  simp only [SchedGroup.free, SchedTarget.free]
  rw [(hs.group g).maxLoad_eq, (hs.group g).curLoad_eq, sum_tsub_distrib _ fun t _ => hs.curLoad_le t]

theorem Balanced.members_eq (hs : s.Balanced) (hs' : s'.Balanced)
    (hgroup : ∀ t, (s'.targets t).group = (s.targets t).group) : s'.members g = s.members g := by
  ext t
  rw [(hs'.group g).mem_members, (hs.group g).mem_members, hgroup]

/-- All targets but `t` are as they were. -/
structure OnlyTarget (s s' : Scheduler) (t : Nat) : Prop where
  group_eq : ∀ t', (s'.targets t').group = (s.targets t').group
  free_eq : ∀ t', t' ≠ t → (s'.targets t').free = (s.targets t').free
  waiters_eq : ∀ t', t' ≠ t → (s'.targets t').waiters = (s.targets t').waiters
  waitCnt_eq : ∀ t', t' ≠ t → (s'.targets t').waitCnt = (s.targets t').waitCnt

theorem OnlyTarget.spokenFor_eq (h : s.OnlyTarget s' t) {t' : Nat} (hne : t' ≠ t) :
    (s'.targets t').spokenFor = (s.targets t').spokenFor := by
  rw [SchedTarget.spokenFor, SchedTarget.spokenFor, h.waiters_eq t' hne, h.free_eq t' hne]

theorem OnlyTarget.of_not_member (h : s.OnlyTarget s' t) (hs : s.Balanced) (hs' : s'.Balanced)
    (hout : (s.targets t).group ≠ some g) :
    (s'.groups g).free = (s.groups g).free
      ∧ ∑ t ∈ s'.members g, (s'.targets t).spokenFor = ∑ t ∈ s.members g, (s.targets t).spokenFor := by
  have hne : ∀ t' ∈ s.members g, t' ≠ t := by
    rintro t' hmem rfl
    exact hout (((hs.group g).mem_members t').1 hmem)
  rw [hs'.free_eq_sum, hs.free_eq_sum, hs.members_eq hs' h.group_eq]
  exact ⟨sum_congr rfl fun t' hmem => h.free_eq t' (hne t' hmem),
    sum_congr rfl fun t' hmem => h.spokenFor_eq (hne t' hmem)⟩

theorem OnlyTarget.of_member (h : s.OnlyTarget s' t) (hs : s.Balanced) (hs' : s'.Balanced)
    (hin : (s.targets t).group = some g) :
    (s'.groups g).free + (s.targets t).free = (s.groups g).free + (s'.targets t).free
      ∧ ∑ t ∈ s'.members g, (s'.targets t).spokenFor + (s.targets t).spokenFor
        = ∑ t ∈ s.members g, (s.targets t).spokenFor + (s'.targets t).spokenFor := by
  have hmem := ((hs.group g).mem_members t).2 hin
  have hfree : ∑ t' ∈ (s.members g).erase t, (s'.targets t').free
      = ∑ t' ∈ (s.members g).erase t, (s.targets t').free :=
    sum_congr rfl fun t' ht' => h.free_eq t' (ne_of_mem_erase ht')
  have hspoken : ∑ t' ∈ (s.members g).erase t, (s'.targets t').spokenFor
      = ∑ t' ∈ (s.members g).erase t, (s.targets t').spokenFor :=
    sum_congr rfl fun t' ht' => h.spokenFor_eq (ne_of_mem_erase ht')
  rw [hs'.free_eq_sum, hs.free_eq_sum, hs.members_eq hs' h.group_eq,
    ← add_sum_erase _ (fun t => (s'.targets t).free) hmem,
    ← add_sum_erase _ (fun t => (s.targets t).free) hmem,
    ← add_sum_erase _ (fun t => (s'.targets t).spokenFor) hmem,
    ← add_sum_erase _ (fun t => (s.targets t).spokenFor) hmem, hfree, hspoken]
  exact ⟨by omega, by omega⟩

/-- A step that changes one target and perhaps the threads of its group. -/
theorem Attended.of_target (ha : s.Attended) (hs : s.Balanced) (hs' : s'.Balanced)
    (h : s.OnlyTarget s' t)
    (hcnt : (s'.targets t).waitCnt = (s'.targets t).waiters.length)
    (hgroupCnt : ∀ g, (s'.groups g).waitCnt = (s'.groups g).waiters.length)
    (hothers : ∀ g, (s.targets t).group ≠ some g → (s'.groups g).waiters = (s.groups g).waiters)
    (htarget : 0 < sleeping (s'.targets t).waiters →
      (s'.targets t).free ≤ woken (s'.targets t).waiters)
    (hgroup : ∀ g, (s.targets t).group = some g → 0 < sleeping (s'.groups g).waiters →
      (s.groups g).free + (s'.targets t).free + (s.targets t).spokenFor + woken (s.groups g).waiters
        ≤ s.spokenFor g + (s.targets t).free + (s'.targets t).spokenFor
          + woken (s'.groups g).waiters) : s'.Attended := by
  refine ⟨?_, hgroupCnt, ?_, ?_⟩
  · intro t'
    by_cases heq : t' = t
    · subst heq
      exact hcnt
    · rw [h.waitCnt_eq t' heq, h.waiters_eq t' heq]
      exact ha.targetCnt t'
  · intro t'
    by_cases heq : t' = t
    · subst heq
      exact htarget
    · rw [h.waiters_eq t' heq, h.free_eq t' heq]
      exact ha.target t'
  · intro g hsleeping
    by_cases hin : (s.targets t).group = some g
    · obtain ⟨hfree, hspoken⟩ := h.of_member hs hs' hin
      have hle := hgroup g hin hsleeping
      simp only [Scheduler.spokenFor] at hle ⊢
      omega
    · obtain ⟨hfree, hspoken⟩ := h.of_not_member hs hs' hin
      rw [hothers g hin] at hsleeping
      have hle := ha.group g hsleeping
      simp only [Scheduler.spokenFor] at hle ⊢
      rw [hfree, hspoken, hothers g hin]
      exact hle

end Sums

end Scheduler

end WorkflowModel.Kernel.CommScheduler
