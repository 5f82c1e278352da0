import WorkflowModel.Proof.SchedulerWaiters

/-!
# Lost wake-ups

Every step keeps what the sleeping threads are owed, except for three. A target that joins a group brings in
many free connections, but `add` wakes one thread. A release at a target whose waiting threads have all been
woken already signals the condition of the target, where nobody sleeps, and not that of the group. And a woken
thread of the group may take the connection that a woken thread of the target was to take, so that one of
the two was woken for nothing. In a run without such steps no wake-up is lost.
-/

namespace WorkflowModel.Kernel.CommScheduler

open WorkflowModel BinaryHeap Finset

namespace Scheduler

variable {s s' s'' : Scheduler} {g t : Nat}

theorem OnlyTarget.trans (h : s.OnlyTarget s' t) (h' : s'.OnlyTarget s'' t) : s.OnlyTarget s'' t := by
  refine ⟨?_, ?_, ?_, ?_⟩
  · intro t'
    exact (h'.group_eq t').trans (h.group_eq t')
  · intro t' hne
    exact (h'.free_eq t' hne).trans (h.free_eq t' hne)
  · intro t' hne
    exact (h'.waiters_eq t' hne).trans (h.waiters_eq t' hne)
  · intro t' hne
    exact (h'.waitCnt_eq t' hne).trans (h.waitCnt_eq t' hne)

/-- A target gets other values but keeps its group, and indices may change. -/
theorem onlyTarget_of_update {target : SchedTarget} (hgroup : target.group = (s.targets t).group)
    (htargets : ∀ t', ∃ index, s'.targets t' = { Function.update s.targets t target t' with index := index }) :
    s.OnlyTarget s' t := by
  have hother : ∀ t', t' ≠ t → ∃ index, s'.targets t' = { s.targets t' with index := index } := by
    intro t' hne
    have := htargets t'
    rwa [Function.update_of_ne hne] at this
  refine ⟨?_, ?_, ?_, ?_⟩
  · intro t'
    by_cases heq : t' = t
    · subst heq
      obtain ⟨index, htarget⟩ := htargets t'
      rw [htarget, Function.update_self]
      exact hgroup
    · obtain ⟨index, htarget⟩ := hother t' heq
      rw [htarget]
  · intro t' hne
    obtain ⟨index, htarget⟩ := hother t' hne
    rw [htarget]
    rfl
  all_goals
    intro t' hne
    obtain ⟨index, htarget⟩ := hother t' hne
    rw [htarget]

theorem onlyTarget_setTarget {target : SchedTarget} (h : target.group = (s.targets t).group) :
    s.OnlyTarget (s.setTarget t target) t :=
  onlyTarget_of_update h fun _ => ⟨_, rfl⟩

theorem onlyTarget_setGroup (group : SchedGroup) : s.OnlyTarget (s.setGroup g group) t :=
  ⟨fun _ => rfl, fun _ _ => rfl, fun _ _ => rfl, fun _ _ => rfl⟩

theorem onlyTarget_targetTake : s.OnlyTarget (s.targetTake t) t :=
  onlyTarget_of_update (taken_group _) (exists_targetTake_target s t)

theorem onlyTarget_release {pick : Nat} : s.OnlyTarget (s.release t pick) t :=
  onlyTarget_of_update (released_group ..) (exists_release_target s t pick)

theorem targetTake_waiters (s : Scheduler) (t : Nat) :
    ((s.targetTake t).targets t).waiters = (s.targets t).waiters
      ∧ ((s.targetTake t).targets t).waitCnt = (s.targets t).waitCnt
      ∧ ∀ g, ((s.targetTake t).groups g).waiters = (s.groups g).waiters
        ∧ ((s.targetTake t).groups g).waitCnt = (s.groups g).waitCnt := by
  cases hgroup : (s.targets t).group with
  | none =>
      rw [targetTake_of_none hgroup]
      simp [taken]
  | some g =>
      rw [targetTake_of_some hgroup]
      refine ⟨by simp [heapify, taken], by simp [heapify, taken], ?_⟩
      intro g'
      by_cases hg : g' = g
      · subst hg
        simp [heapify, takenGroup]
      · simp [heapify, hg]

theorem release_waiters (s : Scheduler) (t pick : Nat) :
    ((s.release t pick).targets t).waiters = (released pick (s.targets t)).waiters
      ∧ ((s.release t pick).targets t).waitCnt = (s.targets t).waitCnt
      ∧ ∀ g, ((s.release t pick).groups g).waitCnt = (s.groups g).waitCnt
        ∧ ((s.release t pick).groups g).waiters
          = if (s.targets t).group = some g then
              (releasedGroup pick (s.targets t) (s.groups g)).waiters
            else (s.groups g).waiters := by
  have hcnt : (released pick (s.targets t)).waitCnt = (s.targets t).waitCnt := by rw [released]
  cases hgroup : (s.targets t).group with
  | none =>
      rw [release_of_none hgroup]
      simp [hcnt]
  | some g =>
      have hgroupCnt : (releasedGroup pick (s.targets t) (s.groups g)).waitCnt
          = (s.groups g).waitCnt := by rw [releasedGroup]
      rw [release_of_some hgroup]
      refine ⟨by simp [heapAdjust], by simp [heapAdjust, hcnt], ?_⟩
      intro g'
      by_cases hg : g' = g
      · subst hg
        simp [heapAdjust, hgroupCnt]
      · have hne : ¬ some g = some g' := fun heq => hg (Option.some.inj heq).symm
        simp [heapAdjust, hg, hne]

theorem targetTake_maxLoad (s : Scheduler) (t t' : Nat) :
    ((s.targetTake t).targets t').maxLoad = (s.targets t').maxLoad := by
  obtain ⟨index, htarget⟩ := exists_targetTake_target s t t'
  rw [htarget, Function.update_apply]
  split
  next heq =>
    rw [heq]
    exact taken_maxLoad _
  · rfl

theorem release_maxLoad (s : Scheduler) (t pick t' : Nat) :
    ((s.release t pick).targets t').maxLoad = (s.targets t').maxLoad := by
  obtain ⟨index, htarget⟩ := exists_release_target s t pick t'
  rw [htarget, Function.update_apply]
  split
  next heq =>
    rw [heq, ← released_maxLoad pick (s.targets t)]
  · rfl

theorem Balanced.targetTake_free (hs : s.Balanced)
    (hlt : (s.targets t).curLoad < (s.targets t).maxLoad) :
    ((s.targetTake t).targets t).free + 1 = (s.targets t).free := by
  simp only [SchedTarget.free]
  rw [targetTake_maxLoad, hs.targetTake_curLoad hlt, if_pos rfl]
  omega

theorem Balanced.release_free (hs : s.Balanced) (pick : Nat) (hpos : 0 < (s.targets t).curLoad) :
    ((s.release t pick).targets t).free = (s.targets t).free + 1 := by
  have hle := hs.curLoad_le t
  simp only [SchedTarget.free]
  rw [release_maxLoad, hs.release_curLoad hpos, if_pos rfl]
  omega

theorem Attended.setTarget_waiters (ha : s.Attended) (hs : s.Balanced) {target : SchedTarget}
    (hs' : (s.setTarget t target).Balanced) (hgroup : target.group = (s.targets t).group)
    (hfree : target.free = (s.targets t).free) (hcnt : target.waitCnt = target.waiters.length)
    (htarget : 0 < sleeping target.waiters → (s.targets t).free ≤ woken target.waiters)
    (hspoken : (s.targets t).spokenFor ≤ min (woken target.waiters) (s.targets t).free) :
    (s.setTarget t target).Attended := by
  have hself : (s.setTarget t target).targets t = target := Function.update_self ..
  refine ha.of_target hs hs' (onlyTarget_setTarget hgroup) ?_ ha.groupCnt (fun _ _ => rfl) ?_ ?_
  · rw [hself]
    exact hcnt
  · rw [hself, hfree]
    exact htarget
  · intro g _ hsleeping
    have hle := ha.group g hsleeping
    have hspoken' : target.spokenFor = min (woken target.waiters) (s.targets t).free := by
      rw [SchedTarget.spokenFor, hfree]
    rw [hself, setTarget_groups]
    omega

/-- Only the threads of a group change. -/
theorem Attended.setGroup_waiters (ha : s.Attended) {waitCnt : Nat} {waiters : List Waiter}
    (hcnt : waitCnt = waiters.length)
    (hgroup : 0 < sleeping waiters →
      (s.groups g).free + woken (s.groups g).waiters ≤ s.spokenFor g + woken waiters) :
    (s.setGroup g { s.groups g with waitCnt := waitCnt, waiters := waiters }).Attended := by
  refine ⟨ha.targetCnt, ?_, ha.target, ?_⟩
  · intro g'
    by_cases hg : g' = g
    · subst hg
      simpa using hcnt
    · simpa [hg] using ha.groupCnt g'
  · intro g'
    by_cases hg : g' = g
    · subst hg
      intro hsleeping
      simp only [setGroup_groups, Function.update_self] at hsleeping
      have hle := hgroup hsleeping
      simp only [Scheduler.spokenFor, members, setGroup_groups, setGroup_targets,
        Function.update_self, SchedGroup.free] at hle ⊢
      omega
    · simpa [Scheduler.spokenFor, members, hg] using ha.group g'

section Wait

variable {i : Nat} {w : Waiter}

theorem spokenFor_of_full (hfull : (s.targets t).maxLoad ≤ (s.targets t).curLoad) :
    (s.targets t).free = 0 ∧ (s.targets t).spokenFor = 0 := by
  have hfree : (s.targets t).free = 0 := Nat.sub_eq_zero_of_le hfull
  refine ⟨hfree, ?_⟩
  rw [SchedTarget.spokenFor, hfree, Nat.min_zero]

theorem Attended.targetWait (ha : s.Attended) (hs : s.Balanced)
    (hfull : (s.targets t).maxLoad ≤ (s.targets t).curLoad) (timed : Bool) :
    (s.targetWait t timed).Attended := by
  obtain ⟨hfree, hspoken⟩ := spokenFor_of_full hfull
  refine ha.setTarget_waiters hs (hs.setTarget_waiters _ _) rfl rfl ?_ ?_ ?_
  · rw [ha.targetCnt, List.length_append]
    rfl
  · intro _
    omega
  · omega

theorem Attended.targetLeave (ha : s.Attended) (hs : s.Balanced)
    (hfull : (s.targets t).maxLoad ≤ (s.targets t).curLoad)
    (hw : (s.targets t).waiters[i]? = some w) (hwoken : w.wake ≠ .asleep) :
    (s.targetLeave t i).Attended := by
  obtain ⟨hfree, hspoken⟩ := spokenFor_of_full hfull
  obtain ⟨-, -, hlength⟩ := counts_eraseIdx hw hwoken
  refine ha.setTarget_waiters hs (hs.setTarget_waiters _ _) rfl rfl ?_ ?_ ?_
  · rw [ha.targetCnt, hlength]
  · intro _
    omega
  · omega

theorem Attended.targetExpire (ha : s.Attended) (hs : s.Balanced) : (s.targetExpire t i).Attended := by
  obtain ⟨hsleeping, hwokens, hlength⟩ := counts_condExpire i (s.targets t).waiters
  refine ha.setTarget_waiters hs (hs.setTarget_waiters _ _) rfl rfl ?_ ?_ ?_
  · rw [ha.targetCnt, hlength]
  · intro hpos
    simp only at hpos ⊢
    have := ha.target t (by omega)
    omega
  · simp only [SchedTarget.spokenFor]
    omega

theorem Attended.groupWait (ha : s.Attended) (hfull : (s.groups g).maxLoad ≤ (s.groups g).curLoad)
    (timed : Bool) : (s.groupWait g timed).Attended := by
  have hfree : (s.groups g).free = 0 := Nat.sub_eq_zero_of_le hfull
  refine ha.setGroup_waiters ?_ ?_
  · rw [ha.groupCnt, List.length_append]
    rfl
  · intro _
    rw [Scheduler.spokenFor]
    omega

theorem Attended.groupLeave (ha : s.Attended) (hfull : (s.groups g).maxLoad ≤ (s.groups g).curLoad)
    (hw : (s.groups g).waiters[i]? = some w) (hwoken : w.wake ≠ .asleep) :
    (s.groupLeave g i).Attended := by
  have hfree : (s.groups g).free = 0 := Nat.sub_eq_zero_of_le hfull
  obtain ⟨-, -, hlength⟩ := counts_eraseIdx hw hwoken
  refine ha.setGroup_waiters ?_ ?_
  · rw [ha.groupCnt, hlength]
  · intro _
    rw [Scheduler.spokenFor]
    omega

theorem Attended.groupExpire (ha : s.Attended) : (s.groupExpire g i).Attended := by
  obtain ⟨hsleeping, hwokens, hlength⟩ := counts_condExpire i (s.groups g).waiters
  refine ha.setGroup_waiters ?_ ?_
  · rw [ha.groupCnt, hlength]
  · intro hpos
    have := ha.group g (by omega)
    omega

end Wait

/-- A thread that has not waited takes a connection. -/
theorem Attended.take (ha : s.Attended) (hs : s.Balanced) (hs' : (s.targetTake t).Balanced)
    (hlt : (s.targets t).curLoad < (s.targets t).maxLoad) : (s.targetTake t).Attended := by
  obtain ⟨hwaiters, hcnt, hgroups⟩ := targetTake_waiters s t
  have hfree := hs.targetTake_free hlt
  refine ha.of_target hs hs' onlyTarget_targetTake ?_ ?_ ?_ ?_ ?_
  · rw [hwaiters, hcnt]
    exact ha.targetCnt t
  · intro g
    rw [(hgroups g).1, (hgroups g).2]
    exact ha.groupCnt g
  · intro g _
    exact (hgroups g).1
  · intro hpos
    rw [hwaiters] at hpos ⊢
    have := ha.target t hpos
    omega
  · intro g _ hpos
    rw [(hgroups g).1] at hpos ⊢
    have := ha.group g hpos
    simp only [SchedTarget.spokenFor, hwaiters]
    omega

/-- A woken thread of the target takes what was kept for it. -/
theorem Attended.targetLeave_take {i : Nat} {w : Waiter} (ha : s.Attended) (hs : s.Balanced)
    (hs' : ((s.targetLeave t i).targetTake t).Balanced)
    (hlt : (s.targets t).curLoad < (s.targets t).maxLoad)
    (hw : (s.targets t).waiters[i]? = some w) (hwoken : w.wake ≠ .asleep) :
    ((s.targetLeave t i).targetTake t).Attended := by
  have hleave : (s.targetLeave t i).Balanced := hs.setTarget_waiters _ _
  have hself : (s.targetLeave t i).targets t = { s.targets t with
      waitCnt := (s.targets t).waitCnt - 1, waiters := (s.targets t).waiters.eraseIdx i } :=
    Function.update_self ..
  obtain ⟨hwaiters, hcnt, hgroups⟩ := targetTake_waiters (s.targetLeave t i) t
  obtain ⟨hsleeping, hwokens, hlength⟩ := counts_eraseIdx hw hwoken
  have hfree := hleave.targetTake_free (t := t) (by simpa [hself] using hlt)
  rw [hself] at hwaiters hcnt hfree
  have hsame : SchedTarget.free { s.targets t with
      waitCnt := (s.targets t).waitCnt - 1, waiters := (s.targets t).waiters.eraseIdx i }
      = (s.targets t).free := rfl
  have honly : s.OnlyTarget (s.targetLeave t i) t := onlyTarget_setTarget rfl
  refine ha.of_target hs hs' (honly.trans onlyTarget_targetTake) ?_ ?_ ?_ ?_ ?_
  · rw [hwaiters, hcnt]
    simp only [ha.targetCnt, hlength]
  · intro g
    rw [(hgroups g).1, (hgroups g).2]
    exact ha.groupCnt g
  · intro g _
    exact (hgroups g).1
  · intro hpos
    rw [hwaiters] at hpos ⊢
    simp only [hsleeping] at hpos
    have := ha.target t hpos
    simp only
    omega
  · intro g _ hpos
    rw [(hgroups g).1] at hpos ⊢
    have hle := ha.group g hpos
    simp only [SchedTarget.spokenFor, hwaiters]
    rw [hsame] at hfree
    have hsamegroups : (s.targetLeave t i).groups g = s.groups g := rfl
    rw [hsamegroups]
    omega

/-- A woken thread of the group takes a connection of the first target. It must not be the last one that a
woken thread of the target was to take, unless there are more connections spoken for than free ones. -/
theorem Attended.groupLeave_take {i : Nat} {w : Waiter} (ha : s.Attended) (hs : s.Balanced)
    (hs' : ((s.groupLeave g i).groupTake g).Balanced)
    (hlt : (s.groups g).curLoad < (s.groups g).maxLoad)
    (hw : (s.groups g).waiters[i]? = some w) (hwoken : w.wake ≠ .asleep)
    (hkept : 0 < sleeping (s.groups g).waiters →
      (s.targets ((s.groups g).tgHeap 0)).free ≤ woken (s.targets ((s.groups g).tgHeap 0)).waiters →
      (s.groups g).free < s.spokenFor g) :
    ((s.groupLeave g i).groupTake g).Attended := by
  have hleave : (s.groupLeave g i).Balanced := hs.setGroup_waiters _ _
  have hself : (s.groupLeave g i).groups g = { s.groups g with
      waitCnt := (s.groups g).waitCnt - 1, waiters := (s.groups g).waiters.eraseIdx i } :=
    Function.update_self ..
  have htop : ((s.groupLeave g i).groups g).tgHeap 0 = (s.groups g).tgHeap 0 := by rw [hself]
  obtain ⟨hgroup, hindex, hfree, -⟩ := hs.top_free hlt
  obtain ⟨hsleeping, hwokens, hlength⟩ := counts_eraseIdx hw hwoken
  generalize htop' : (s.groups g).tgHeap 0 = t at *
  have heq : (s.groupLeave g i).groupTake g = (s.groupLeave g i).targetTake t := by
    rw [← htop]
    exact groupTake_eq (by rw [htop]; exact hgroup) (by rw [htop]; exact hindex)
  rw [heq] at hs' ⊢
  obtain ⟨hwaiters, hcnt, hgroups⟩ := targetTake_waiters (s.groupLeave g i) t
  have hfree' : (((s.groupLeave g i).targetTake t).targets t).free + 1 = (s.targets t).free :=
    hleave.targetTake_free hfree
  have honly : s.OnlyTarget (s.groupLeave g i) t := onlyTarget_setGroup _
  have htargets : (s.groupLeave g i).targets = s.targets := rfl
  have hothers : ∀ g', g' ≠ g → (s.groupLeave g i).groups g' = s.groups g' :=
    fun g' hne => Function.update_of_ne hne _ _
  rw [htargets] at hwaiters hcnt
  refine ha.of_target hs hs' (honly.trans onlyTarget_targetTake) ?_ ?_ ?_ ?_ ?_
  · rw [hwaiters, hcnt]
    exact ha.targetCnt t
  · intro g'
    rw [(hgroups g').1, (hgroups g').2]
    by_cases hg : g' = g
    · subst hg
      rw [hself]
      simp only [ha.groupCnt, hlength]
    · rw [hothers g' hg]
      exact ha.groupCnt g'
  · intro g' hout
    have hne : g' ≠ g := by
      rintro rfl
      exact hout hgroup
    rw [(hgroups g').1, hothers g' hne]
  · intro hpos
    rw [hwaiters] at hpos ⊢
    have := ha.target t hpos
    omega
  · intro g' hin hpos
    obtain rfl : g = g' := Option.some.inj (hgroup.symm.trans hin)
    rw [(hgroups g).1, hself] at hpos ⊢
    simp only [hsleeping] at hpos
    have hle := ha.group g hpos
    have hkept' := hkept hpos
    simp only [SchedTarget.spokenFor, hwaiters]
    omega

/-- A release is noticed: by a sleeping thread of the target, by one of the group if nobody waits for the
target, or else by a woken thread of the target that had nothing to take. -/
theorem Attended.release {pick : Nat} (ha : s.Attended) (hs : s.Balanced)
    (hs' : (s.release t pick).Balanced) (hpos : 0 < (s.targets t).curLoad)
    (hnoticed : ∀ g, (s.targets t).group = some g → sleeping (s.targets t).waiters = 0 →
      0 < woken (s.targets t).waiters → woken (s.targets t).waiters ≤ (s.targets t).free →
      0 < sleeping (s.groups g).waiters → (s.groups g).free < s.spokenFor g) :
    (s.release t pick).Attended := by
  obtain ⟨hwaiters, hcnt, hgroups⟩ := release_waiters s t pick
  have hfree := hs.release_free pick hpos
  have hcount := ha.targetCnt t
  have hsum := sleeping_add_woken (s.targets t).waiters
  refine ha.of_target hs hs' onlyTarget_release ?_ ?_ ?_ ?_ ?_
  · rw [hwaiters, hcnt, hcount]
    simp only [released]
    split_ifs
    · rw [length_condSignal]
    · rfl
  · intro g
    rw [(hgroups g).1, (hgroups g).2, ha.groupCnt]
    simp only [releasedGroup]
    split_ifs
    · rw [length_condSignal]
    · rfl
    · rfl
  · intro g hout
    rw [(hgroups g).2, if_neg hout]
  · rw [hwaiters, hfree]
    simp only [released]
    split_ifs with hwait
    · rw [sleeping_condSignal, woken_condSignal]
      intro hsleeping
      have := ha.target t (by omega)
      omega
    · intro hsleeping
      omega
  · intro g hin
    rw [(hgroups g).2, if_pos hin, hfree]
    simp only [SchedTarget.spokenFor, hwaiters, hfree]
    have hgroupCnt := ha.groupCnt g
    have hgroupSum := sleeping_add_woken (s.groups g).waiters
    have hle := ha.group g
    by_cases hwait : (s.targets t).waitCnt > 0
    · -- the signal goes to the condition of the target
      have hne : ¬ ((s.targets t).waitCnt = 0 ∧ (s.groups g).waitCnt > 0) := by omega
      simp only [released, releasedGroup, if_pos hwait, if_neg hne, woken_condSignal]
      intro hsleeping
      have hle' := hle hsleeping
      by_cases hasleep : sleeping (s.targets t).waiters = 0
      · have hnot := hnoticed g hin hasleep (by omega)
        omega
      · omega
    · -- nobody waits for the target, and the group is signalled if somebody waits for it
      simp only [released, if_neg hwait]
      by_cases hgroupWait : (s.targets t).waitCnt = 0 ∧ (s.groups g).waitCnt > 0
      · simp only [releasedGroup, if_pos hgroupWait, sleeping_condSignal, woken_condSignal]
        intro hsleeping
        have hle' := hle (by omega)
        omega
      · simp only [releasedGroup, if_neg hgroupWait]
        intro hsleeping
        omega

/-- A target that nobody waits for joins or leaves the group. -/
theorem Attended.regroup {membership : Option Nat} {group : SchedGroup} {σ : Slots Nat}
    (ha : s.Attended) (hcnt : group.waitCnt = group.waiters.length)
    (hgroup : 0 < sleeping group.waiters → group.free
      ≤ woken group.waiters + ∑ t' ∈ (s.regroup g t membership group σ).members g,
        (s.targets t').spokenFor) :
    (s.regroup g t membership group σ).Attended := by
  have hself : (s.regroup g t membership group σ).groups g = { group with tgHeap := σ.heap } :=
    Function.update_self ..
  have hothers : ∀ g', g' ≠ g → (s.regroup g t membership group σ).groups g' = s.groups g' :=
    fun g' hne => Function.update_of_ne hne _ _
  refine ⟨ha.targetCnt, ?_, ha.target, ?_⟩
  · intro g'
    by_cases hg : g' = g
    · subst hg
      rw [hself]
      exact hcnt
    · rw [hothers g' hg]
      exact ha.groupCnt g'
  · intro g'
    by_cases hg : g' = g
    · subst hg
      rw [Scheduler.spokenFor, hself]
      exact hgroup
    · have hmembers : (s.regroup g t membership group σ).members g' = s.members g' := by
        rw [members, members, hothers g' hg]
      rw [Scheduler.spokenFor, hmembers, hothers g' hg]
      exact ha.group g'

theorem Attended.spokenFor_eq_zero (ha : s.Attended) (hcnt : (s.targets t).waitCnt = 0) :
    (s.targets t).spokenFor = 0 := by
  have hsum := sleeping_add_woken (s.targets t).waiters
  have hlength := ha.targetCnt t
  rw [SchedTarget.spokenFor]
  omega

theorem Attended.add {realloc : Bool} {pick : Nat} (ha : s.Attended) (hs : s.Balanced)
    (hs' : (s.add g t realloc pick).1.Balanced) (hdone : (s.add g t realloc pick).2 = .done)
    (hkept : 2 ≤ sleeping (s.groups g).waiters →
      (s.groups g).free + (s.targets t).free ≤ s.spokenFor g + 1) :
    (s.add g t realloc pick).1.Attended := by
  obtain ⟨hnone, hcnt, heq⟩ := add_eq hdone
  rw [heq] at hs' ⊢
  have hspoken := ha.spokenFor_eq_zero hcnt
  have hnot : t ∉ s.members g := by
    rw [(hs.group g).mem_members, hnone]
    simp
  have hmembers : (s.regroup g t (some g) (joinedGroup pick (s.targets t) (s.groups g))
      (s.joinedSlots g t)).members g = insert t (s.members g) := by
    ext t'
    rw [(hs'.group g).mem_members, mem_insert, (hs.group g).mem_members]
    by_cases heq : t' = t <;> simp [Scheduler.regroup, heq]
  have hfree : (joinedGroup pick (s.targets t) (s.groups g)).free
      = (s.targets t).free + (s.groups g).free := by
    calc (joinedGroup pick (s.targets t) (s.groups g)).free
        = ((s.regroup g t (some g) (joinedGroup pick (s.targets t) (s.groups g))
            (s.joinedSlots g t)).groups g).free := by simp [Scheduler.regroup, SchedGroup.free]
      _ = ∑ t' ∈ insert t (s.members g), (s.targets t').free := by
          rw [hs'.free_eq_sum, hmembers]
          rfl
      _ = (s.targets t).free + (s.groups g).free := by
          rw [sum_insert hnot, ← hs.free_eq_sum]
  have hcount := ha.groupCnt g
  have hsum := sleeping_add_woken (s.groups g).waiters
  have hfull : (joinedGroup pick (s.targets t) (s.groups g)).free
      = sizeAdd (s.groups g).maxLoad (s.targets t).maxLoad
        - sizeAdd (s.groups g).curLoad (s.targets t).curLoad := rfl
  refine ha.regroup ?_ ?_
  · simp only [joinedGroup]
    split_ifs
    · rw [length_condSignal]
      exact hcount
    · exact hcount
  · rw [hmembers, sum_insert hnot, hspoken, hfree]
    rw [Scheduler.spokenFor] at hkept
    simp only [joinedGroup]
    split_ifs with hsignal
    · rw [sleeping_condSignal, woken_condSignal]
      intro hsleeping
      have := hkept (by omega)
      omega
    · intro hsleeping
      have : ¬ sizeAdd (s.groups g).curLoad (s.targets t).curLoad
          < sizeAdd (s.groups g).maxLoad (s.targets t).maxLoad := fun hlt => hsignal ⟨by omega, hlt⟩
      omega

theorem Attended.remove (ha : s.Attended) (hs : s.Balanced) (hs' : (s.remove g t).1.Balanced)
    (hdone : (s.remove g t).2 = .done) : (s.remove g t).1.Attended := by
  obtain ⟨hmember, hcnt, heq⟩ := remove_eq hdone
  rw [heq] at hs' ⊢
  have hspoken := ha.spokenFor_eq_zero hcnt
  have hmem := ((hs.group g).mem_members t).2 hmember
  have hmembers : (s.regroup g t none (leftGroup (s.targets t) (s.groups g))
      (s.leftSlots g t)).members g = (s.members g).erase t := by
    ext t'
    rw [(hs'.group g).mem_members, mem_erase, (hs.group g).mem_members]
    by_cases heq : t' = t <;> simp [Scheduler.regroup, heq]
  have hfree : (leftGroup (s.targets t) (s.groups g)).free
      = ∑ t' ∈ (s.members g).erase t, (s.targets t').free := by
    calc (leftGroup (s.targets t) (s.groups g)).free
        = ((s.regroup g t none (leftGroup (s.targets t) (s.groups g))
            (s.leftSlots g t)).groups g).free := by simp [Scheduler.regroup, SchedGroup.free]
      _ = ∑ t' ∈ (s.members g).erase t, (s.targets t').free := by
          rw [hs'.free_eq_sum, hmembers]
          rfl
  have hfreeSum := add_sum_erase (s.members g) (fun t' => (s.targets t').free) hmem
  have hspokenSum := add_sum_erase (s.members g) (fun t' => (s.targets t').spokenFor) hmem
  rw [← hs.free_eq_sum] at hfreeSum
  refine ha.regroup (ha.groupCnt g) ?_
  intro hsleeping
  have hle := ha.group g hsleeping
  rw [Scheduler.spokenFor] at hle
  rw [hmembers, hfree]
  simp only [leftGroup]
  omega

end Scheduler

/-- The steps after which free connections of a group are left to nobody while its threads sleep. -/
def LosesWakeup (s : State) : Op → Prop
  | .add g t realloc pick =>
      (s.sched.add g t realloc pick).2 = .done ∧ 2 ≤ sleeping (s.sched.groups g).waiters
        ∧ s.sched.spokenFor g + 1 < (s.sched.groups g).free + (s.sched.targets t).free
  | .release t _ =>
      0 < s.held t ∧ sleeping (s.sched.targets t).waiters = 0
        ∧ 0 < woken (s.sched.targets t).waiters
        ∧ woken (s.sched.targets t).waiters ≤ (s.sched.targets t).free
        ∧ ∃ g, (s.sched.targets t).group = some g ∧ 0 < sleeping (s.sched.groups g).waiters
          ∧ s.sched.spokenFor g ≤ (s.sched.groups g).free
  | .groupResume g i =>
      (∃ w, (s.sched.groups g).waiters[i]? = some w ∧ w.wake ≠ .asleep)
        ∧ 0 < (s.sched.groups g).free ∧ 0 < sleeping (s.sched.groups g).waiters
        ∧ (s.sched.targets ((s.sched.groups g).tgHeap 0)).free
          ≤ woken (s.sched.targets ((s.sched.groups g).tgHeap 0)).waiters
        ∧ s.sched.spokenFor g ≤ (s.sched.groups g).free
  | _ => False

theorem step_attended {s : State} {op : Op} (hs : s.Sound) (hs' : (s.step op).Sound)
    (ha : s.sched.Attended) (hkeeps : ¬ LosesWakeup s op) : (s.step op).sched.Attended := by
  have hb := hs.balanced
  have hb' := hs'.balanced
  cases op with
  | targetAcquire t waitTimeout =>
      simp only [State.step] at hb' ⊢
      obtain ⟨hfull, heq | ⟨timed, heq⟩⟩ | ⟨hfree, heq⟩ :=
        Scheduler.targetAcquire_cases s.sched t waitTimeout
      · rw [heq]
        exact ha
      · rw [heq]
        exact ha.targetWait hb hfull timed
      · rw [heq] at hb' ⊢
        exact ha.take hb hb' hfree
  | targetResume t i =>
      simp only [State.step] at hb' ⊢
      obtain heq | ⟨w, hw, hwoken, ⟨hfull, heq | heq⟩ | ⟨hfree, heq⟩⟩ :=
        Scheduler.targetResume_cases s.sched t i
      · rw [heq]
        exact ha
      · rw [heq]
        exact ha.targetLeave hb hfull hw hwoken
      · rw [heq]
        refine (ha.targetLeave hb hfull hw hwoken).targetWait (hb.setTarget_waiters _ _) ?_ w.timed
        simpa [Scheduler.targetLeave] using hfull
      · rw [heq] at hb' ⊢
        exact ha.targetLeave_take hb hb' hfree hw hwoken
  | targetExpire t i => exact ha.targetExpire hb
  | release t pick =>
      simp only [State.step] at hb' ⊢
      split_ifs at hb' ⊢ with hheld
      · have hpos : 0 < (s.sched.targets t).curLoad := by
          rw [← hs.held_eq]
          exact hheld
        refine ha.release hb hb' hpos ?_
        intro g hgroup hasleep hwoken hle hsleeping
        refine not_le.1 ?_
        intro hspoken
        exact hkeeps ⟨hheld, hasleep, hwoken, hle, g, hgroup, hsleeping, hspoken⟩
      · exact ha
  | groupAcquire g waitTimeout =>
      simp only [State.step] at hb' ⊢
      obtain ⟨hfull, heq | ⟨timed, heq⟩⟩ | ⟨hfree, heq⟩ :=
        Scheduler.groupAcquire_cases s.sched g waitTimeout
      · rw [heq]
        exact ha
      · rw [heq]
        exact ha.groupWait hfull timed
      · obtain ⟨hgroup, hindex, hlt, -⟩ := hb.top_free hfree
        rw [heq] at hb' ⊢
        simp only [State.grant, Scheduler.groupTake_eq hgroup hindex] at hb' ⊢
        exact ha.take hb hb' hlt
  | groupResume g i =>
      simp only [State.step] at hb' ⊢
      obtain heq | ⟨w, hw, hwoken, ⟨hfull, heq | heq⟩ | ⟨hfree, heq⟩⟩ :=
        Scheduler.groupResume_cases s.sched g i
      · rw [heq]
        exact ha
      · rw [heq]
        exact ha.groupLeave hfull hw hwoken
      · rw [heq]
        refine (ha.groupLeave hfull hw hwoken).groupWait ?_ w.timed
        simpa [Scheduler.groupLeave] using hfull
      · rw [heq] at hb' ⊢
        refine ha.groupLeave_take hb hb' hfree hw hwoken ?_
        intro hsleeping hle
        refine not_le.1 ?_
        intro hspoken
        exact hkeeps ⟨⟨w, hw, hwoken⟩, Nat.sub_pos_of_lt hfree, hsleeping, hle, hspoken⟩
  | groupExpire g i => exact ha.groupExpire
  | add g t realloc pick =>
      simp only [State.step] at hb' ⊢
      by_cases hdone : (s.sched.add g t realloc pick).2 = .done
      · refine ha.add hb hb' hdone ?_
        intro hsleeping
        refine not_lt.1 ?_
        intro hlt
        exact hkeeps ⟨hdone, hsleeping, hlt⟩
      · rw [Scheduler.add_of_ne_done hdone]
        exact ha
  | remove g t =>
      simp only [State.step] at hb' ⊢
      by_cases hdone : (s.sched.remove g t).2 = .done
      · exact ha.remove hb hb' hdone
      · rw [Scheduler.remove_of_ne_done hdone]
        exact ha

theorem initial_attended (maxConnections : Nat → MaxConnections) :
    (initialState maxConnections).sched.Attended := by
  refine ⟨fun _ => rfl, fun _ => rfl, ?_, ?_⟩
  · intro t hsleeping
    simp [initialState, SchedTarget.fresh, sleeping] at hsleeping
  · intro g hsleeping
    simp [initialState, SchedGroup.init, sleeping] at hsleeping

def KeepsWakeups (s : State) (op : Op) : Prop := LoadsFit s op ∧ ¬ LosesWakeup s op

theorem Reached.attended {maxConnections : Nat → MaxConnections} {s : State}
    (h : Reached KeepsWakeups maxConnections s) : s.sched.Attended := by
  induction h with
  | init => exact initial_attended maxConnections
  | step op hreached hop ih =>
      have hs := hreached.sound fun _ _ hop => hop.1
      exact step_attended hs (State.step_sound hs hop.1.1 hop.1.2) ih hop.2

def Quiet (s : Scheduler) : Prop :=
  (∀ t, woken (s.targets t).waiters = 0) ∧ ∀ g, woken (s.groups g).waiters = 0

def NoLostWakeup (s : Scheduler) : Prop :=
  (∀ g, 0 < sleeping (s.groups g).waiters → (s.groups g).maxLoad ≤ (s.groups g).curLoad)
    ∧ ∀ t, 0 < sleeping (s.targets t).waiters → (s.targets t).maxLoad ≤ (s.targets t).curLoad

theorem Scheduler.Attended.noLostWakeup {s : Scheduler} (ha : s.Attended) (hquiet : Quiet s) :
    NoLostWakeup s := by
  refine ⟨?_, ?_⟩
  · intro g hsleeping
    have hspoken : s.spokenFor g = 0 := by
      rw [Scheduler.spokenFor, hquiet.2, Nat.zero_add]
      apply sum_eq_zero
      intro t _
      rw [SchedTarget.spokenFor, hquiet.1, Nat.zero_min]
    have hle := ha.group g hsleeping
    rw [hspoken] at hle
    exact Nat.sub_eq_zero_iff_le.1 (Nat.le_zero.1 hle)
  · intro t hsleeping
    have hle := ha.target t hsleeping
    rw [hquiet.1] at hle
    exact Nat.sub_eq_zero_iff_le.1 (Nat.le_zero.1 hle)

/-- In every run whose steps lose no wake-up, a thread sleeps only where there is no free connection, once
all woken threads have run. -/
theorem noLostWakeup_of_reached {maxConnections : Nat → MaxConnections} {s : State}
    (h : Reached KeepsWakeups maxConnections s) (hquiet : Quiet s.sched) : NoLostWakeup s.sched :=
  h.attended.noLostWakeup hquiet

/-! ### Two threads and one target

Two threads wait for a connection of the empty group 0. A target joins it, which wakes the first thread, and
the thread takes its connection. -/

def waiterState (n : MaxConnections) : State := (initialState fun _ => n).step (.groupAcquire 0 (-1))

def waitersState (n : MaxConnections) : State := (waiterState n).step (.groupAcquire 0 (-1))

def wokenState (n : MaxConnections) : State := (waitersState n).step (.add 0 0 true 0)

def servedState (n : MaxConnections) : State := (wokenState n).step (.groupResume 0 0)

def oneConnection : MaxConnections := ⟨1, by decide⟩

def twoConnections : MaxConnections := ⟨2, by decide⟩

theorem wokenState_targets (n : MaxConnections) (t : Nat) :
    ((wokenState n).sched.targets t).curLoad = 0 ∧ ((wokenState n).sched.targets t).maxLoad = n.1
      ∧ ((wokenState n).sched.targets t).waiters = [] := by
  simp only [wokenState, State.step]
  by_cases hdone : ((waitersState n).sched.add 0 0 true 0).2 = .done
  · rw [(Scheduler.add_eq hdone).2.2]
    exact ⟨rfl, rfl, rfl⟩
  · rw [Scheduler.add_of_ne_done hdone]
    exact ⟨rfl, rfl, rfl⟩

theorem groupTake_targets (s : Scheduler) (g t : Nat) :
    ((s.groupTake g).targets t).waiters = (s.targets t).waiters
      ∧ ((s.groupTake g).targets t).curLoad ≤ (s.targets t).curLoad + 1
      ∧ ((s.groupTake g).targets t).maxLoad = (s.targets t).maxLoad := by
  have hmod : sizeAdd (s.targets t).curLoad 1 ≤ (s.targets t).curLoad + 1 := Nat.mod_le _ _
  by_cases heq : t = (s.groups g).tgHeap 0
  · subst heq
    simpa [Scheduler.groupTake, Scheduler.heapify] using hmod
  · simp [Scheduler.groupTake, Scheduler.heapify, heq]

theorem productsFit_groupTake {s : Scheduler} {g : Nat} (hcur : ∀ t, (s.targets t).curLoad = 0)
    (hmax : ∀ t, (s.targets t).maxLoad = 1) : (s.groupTake g).ProductsFit := by
  intro g' t t' _ _
  have hcur' := (groupTake_targets s g t).2.1
  have hmax' := (groupTake_targets s g t').2.2
  have hone : (0 + 1) * 1 < sizeModulus := by decide
  rw [hcur] at hcur'
  rw [hmax] at hmax'
  exact (Nat.mul_le_mul hcur' hmax'.le).trans_lt hone

theorem groupTake_groups_of_ne (s : Scheduler) {g g' : Nat} (h : g' ≠ g) :
    (s.groupTake g).groups g' = s.groups g' := by
  simp [Scheduler.groupTake, Scheduler.heapify, h]

theorem waiterState_groups (n : MaxConnections) {g : Nat} (h : g ≠ 0) :
    (waiterState n).sched.groups g = SchedGroup.init := Function.update_of_ne h _ _

theorem waitersState_groups (n : MaxConnections) {g : Nat} (h : g ≠ 0) :
    (waitersState n).sched.groups g = SchedGroup.init :=
  (Function.update_of_ne h _ _).trans (waiterState_groups n h)

theorem wokenState_groups (n : MaxConnections) {g : Nat} (h : g ≠ 0) :
    (wokenState n).sched.groups g = SchedGroup.init := by
  simp only [wokenState, State.step, Scheduler.add_groups_of_ne _ _ h]
  exact waitersState_groups n h

section Served

variable {n : MaxConnections}
  (h : (servedState n).sched = ((wokenState n).sched.groupLeave 0 0).groupTake 0)

include h

theorem servedState_groups {g : Nat} (hg : g ≠ 0) :
    (servedState n).sched.groups g = SchedGroup.init := by
  rw [h, groupTake_groups_of_ne _ hg, ← wokenState_groups n hg]
  exact Function.update_of_ne hg _ _

theorem servedState_quiet (hgroup : woken ((servedState n).sched.groups 0).waiters = 0) :
    Quiet (servedState n).sched := by
  refine ⟨?_, ?_⟩
  · intro t
    have hwaiters : (((wokenState n).sched.groupLeave 0 0).targets t).waiters = [] :=
      (wokenState_targets n t).2.2
    rw [h, (groupTake_targets _ 0 t).1, hwaiters]
    rfl
  · intro g
    by_cases hg : g = 0
    · subst hg
      exact hgroup
    · rw [servedState_groups h hg]
      rfl

end Served

theorem reached_servedState : Reached KeepsWakeups (fun _ => oneConnection) (servedState oneConnection) := by
  have hserved : (servedState oneConnection).sched
      = ((wokenState oneConnection).sched.groupLeave 0 0).groupTake 0 := rfl
  have hempty : ∀ group : SchedGroup, group = SchedGroup.init → group.heapSize = 0 := by
    rintro _ rfl
    rfl
  refine .step _ (.step _ (.step _ (.step _ .init ⟨⟨?_, ?_⟩, ?_⟩) ⟨⟨?_, ?_⟩, ?_⟩) ⟨⟨?_, ?_⟩, ?_⟩)
    ⟨⟨?_, ?_⟩, ?_⟩
  · exact productsFit_of_idle fun _ => rfl
  · exact sumsFit_of_group_zero (fun _ hg => hempty _ (waiterState_groups _ hg)) (by decide)
  · exact id
  · exact productsFit_of_idle fun _ => rfl
  · exact sumsFit_of_group_zero (fun _ hg => hempty _ (waitersState_groups _ hg)) (by decide)
  · exact id
  · exact productsFit_of_idle fun t => (wokenState_targets _ t).1
  · exact sumsFit_of_group_zero (fun _ hg => hempty _ (wokenState_groups _ hg)) (by decide)
  · rintro ⟨-, -, hlt⟩
    revert hlt
    decide
  · exact hserved ▸ productsFit_groupTake (fun t => (wokenState_targets oneConnection t).1)
      fun t => (wokenState_targets oneConnection t).2.1
  · exact sumsFit_of_group_zero (fun _ hg => hempty _ (servedState_groups hserved hg)) (by decide)
  · rintro ⟨-, -, -, hle, -⟩
    revert hle
    decide

/-- One connection for two threads: the one that still sleeps is owed nothing. -/
theorem noLostWakeup_servedState : 0 < sleeping ((servedState oneConnection).sched.groups 0).waiters
    ∧ NoLostWakeup (servedState oneConnection).sched :=
  ⟨by decide, noLostWakeup_of_reached reached_servedState (servedState_quiet rfl (by decide))⟩

/-- Two connections for two threads, of which only one is woken. -/
theorem lostWakeup_servedState :
    ¬ ∀ (maxConnections : Nat → MaxConnections) (s : State),
      Reached (fun _ _ => True) maxConnections s → Quiet s.sched → NoLostWakeup s.sched := by
  intro h
  have hreached : Reached (fun _ _ => True) (fun _ => twoConnections) (servedState twoConnections) :=
    .step _ (.step _ (.step _ (.step _ .init trivial) trivial) trivial) trivial
  have hlost := (h _ _ hreached (servedState_quiet rfl (by decide))).1 0 (by decide)
  revert hlost
  decide

end WorkflowModel.Kernel.CommScheduler
