import WorkflowModel.Proof.SchedulerHeap

/-!
# Operations on a balanced group

A connection that is handed out or released changes the load of one member, and the heap is repaired by one
sift in the direction of the change. A target that joins or leaves its group changes the number of slots.
-/

namespace WorkflowModel.Kernel.CommScheduler

open WorkflowModel BinaryHeap Finset

namespace Scheduler

/-- `s'` is `s` except for the load of the member `t` of `g`, the load of `g`, and the waiting threads. -/
structure Reloads (s s' : Scheduler) (g t : Nat) : Prop where
  member : (s.targets t).group = some g
  others : ∀ g', g' ≠ g → SameMembers (s.groups g') (s'.groups g')
  maxLoad : (s'.groups g).maxLoad = (s.groups g).maxLoad
  tgHeap : (s'.groups g).tgHeap = (s.groups g).tgHeap
  heapSize : (s'.groups g).heapSize = (s.groups g).heapSize
  curLoad : (s'.groups g).curLoad + (s.targets t).curLoad
    = (s.groups g).curLoad + (s'.targets t).curLoad
  targets : ∀ t', t' ≠ t → SameLoad (s.targets t') (s'.targets t')
  group_eq : ∀ t', (s'.targets t').group = (s.targets t').group
  index_eq : ∀ t', (s'.targets t').index = (s.targets t').index
  max_eq : ∀ t', (s'.targets t').maxLoad = (s.targets t').maxLoad
  le : (s'.targets t).curLoad ≤ (s'.targets t).maxLoad

section Reload

variable {s s' : Scheduler} {g t : Nat}

theorem Reloads.slots_eq (h : s.Reloads s' g t) : s'.slots g = s.slots g := by
  rw [slots, slots, h.tgHeap]
  congr 1
  funext t'
  exact h.index_eq t'

theorem Reloads.ratio_eq (h : s.Reloads s' g t) {t' : Nat} (hne : t' ≠ t) :
    ratio (s'.targets t') = ratio (s.targets t') := by
  rw [ratio, ratio, h.max_eq, (h.targets t' hne).2.1]

theorem Reloads.holeAt (h : s.Reloads s' g t) (hs : s.Balanced) :
    HoleAt (fun t => ratio (s'.targets t)) (s.groups g).heapSize (s.targets t).index (s.slots g) := by
  have hlists := (hs.group g).lists
  have hmem := ((hs.group g).mem_members t).2 h.member
  refine (hs.group g).isHeap.holeAt (hlists.index_lt t hmem) ?_
  intro i hi hne
  apply h.ratio_eq
  intro heq
  apply hne
  rw [← heq]
  exact (hlists.index_heap i hi).symm

theorem Reloads.before_iff_ratio (h : s.Reloads s' g t) (hs : s.Balanced) (hfit : s'.ProductsFit) :
    ∀ a ∈ s.members g, ∀ b ∈ s.members g,
      (s'.before a b = true ↔ ratio (s'.targets a) < ratio (s'.targets b)) := by
  intro a ha b hb
  have hga : (s'.targets a).group = some g := by
    rw [h.group_eq, ← (hs.group g).mem_members]
    exact ha
  have hgb : (s'.targets b).group = some g := by
    rw [h.group_eq, ← (hs.group g).mem_members]
    exact hb
  have hpos : ∀ t', 0 < (s'.targets t').maxLoad := by
    intro t'
    rw [h.max_eq]
    exact hs.maxLoad_pos t'
  exact before_iff (hpos a) (hpos b) (hfit g a b hga hgb) (hfit g b a hgb hga)

/-- The sums after the change, over any slots that list the members in order. -/
theorem Reloads.balanced (h : s.Reloads s' g t) (hs : s.Balanced) {σ : Slots Nat}
    (hlists : Lists (s.members g) (s.groups g).heapSize σ)
    (hheap : IsHeap (fun t => ratio (s'.targets t)) (s.groups g).heapSize σ)
    (hframe : ∀ t', t' ∉ s.members g → σ.index t' = (s.targets t').index) :
    (s'.setSlots g σ).Balanced := by
  have hmem := ((hs.group g).mem_members t).2 h.member
  refine ⟨?_, ?_, ?_, ?_⟩
  · intro t'
    simp only [setSlots_targets, h.max_eq]
    exact hs.maxLoad_pos t'
  · intro t'
    simp only [setSlots_targets]
    by_cases heq : t' = t
    · subst heq
      exact h.le
    · rw [h.max_eq, (h.targets t' heq).2.1]
      exact hs.curLoad_le t'
  · intro t'
    simp only [setSlots_targets, h.max_eq]
    exact hs.maxLoad_lt t'
  · intro g'
    by_cases hg : g' = g
    · subst hg
      refine GroupBalanced.of_lists (M := s.members g') ?_ ?_ ?_ ?_ ?_ ?_
      · intro t'
        rw [(hs.group g').mem_members]
        simp only [setSlots_targets, h.group_eq]
      · simpa [setSlots_slots, h.heapSize] using hlists
      · simpa [setSlots_slots, h.heapSize, ratio] using hheap
      · simp only [setSlots_groups, setSlots_targets, Function.update_self, h.maxLoad, h.max_eq]
        exact (hs.group g').maxLoad_eq
      · simp only [setSlots_groups, setSlots_targets, Function.update_self]
        have hsum := (hs.group g').curLoad_eq
        have hcur := h.curLoad
        have hrest : ∑ x ∈ (s.members g').erase t, (s'.targets x).curLoad
            = ∑ x ∈ (s.members g').erase t, (s.targets x).curLoad :=
          sum_congr rfl fun x hx => (h.targets x (ne_of_mem_erase hx)).2.1
        rw [← add_sum_erase _ _ hmem] at hsum
        rw [← add_sum_erase _ _ hmem, hrest]
        omega
      · simp only [setSlots_targets, h.max_eq]
        exact (hs.group g').fits
    · refine (hs.group g').congr ?_ ?_ ?_ ?_
      · simpa [hg] using h.others g' hg
      · intro t'
        simp only [setSlots_targets, h.max_eq]
      · intro t' ht'
        have hne : t' ≠ t := by
          rintro rfl
          rw [h.member] at ht'
          exact hg (Option.some.inj ht').symm
        have hout : t' ∉ s.members g := by
          rw [(hs.group g).mem_members, ht']
          intro heq
          exact hg (Option.some.inj heq)
        exact ⟨h.group_eq t', (h.targets t' hne).2.1, hframe t' hout⟩
      · intro t' ht'
        rw [← h.group_eq]
        exact ht'

/-- More load: the member goes down. -/
theorem Reloads.heapify (h : s.Reloads s' g t) (hs : s.Balanced) (hfit : s'.ProductsFit)
    (hle : (s.targets t).curLoad ≤ (s'.targets t).curLoad) :
    (s'.heapify g (s'.targets t).index).Balanced := by
  have hlists := (hs.group g).lists
  have hmem := ((hs.group g).mem_members t).2 h.member
  have htop : (s.slots g).heap (s.targets t).index = t := hlists.heap_index t hmem
  have hlt : (s.targets t).index < (s.groups g).heapSize := hlists.index_lt t hmem
  have habove : FitsAbove (fun t => ratio (s'.targets t)) (s.targets t).index
      ((s.slots g).heap (s.targets t).index) (s.slots g) := by
    intro hpos
    have hparent := parent_lt hpos
    have hne : (s.slots g).heap (parent (s.targets t).index) ≠ t := by
      intro heq
      have := hlists.heap_injOn _ _ (hparent.trans hlt) hlt (heq.trans htop.symm)
      omega
    calc ratio (s'.targets ((s.slots g).heap (parent (s.targets t).index)))
        = ratio (s.targets ((s.slots g).heap (parent (s.targets t).index))) := h.ratio_eq hne
      _ ≤ ratio (s.targets ((s.slots g).heap (s.targets t).index)) := (hs.group g).isHeap _ hpos hlt
      _ ≤ ratio (s'.targets ((s.slots g).heap (s.targets t).index)) := by
          rw [htop]
          exact ratio_le_ratio (h.max_eq t).symm hle
  obtain ⟨hlists', hheap', hframe'⟩ :=
    siftDown_isHeap (h.before_iff_ratio hs hfit) hlists hlt (h.holeAt hs) habove
  rw [Scheduler.heapify, h.slots_eq, h.heapSize, h.index_eq]
  exact h.balanced hs hlists' hheap' hframe'

/-- Less load: the member goes up. -/
theorem Reloads.heapAdjust (h : s.Reloads s' g t) (hs : s.Balanced) (hfit : s'.ProductsFit)
    (hle : (s'.targets t).curLoad ≤ (s.targets t).curLoad) :
    (s'.heapAdjust g (s'.targets t).index).Balanced := by
  have hlists := (hs.group g).lists
  have hmem := ((hs.group g).mem_members t).2 h.member
  have htop : (s.slots g).heap (s.targets t).index = t := hlists.heap_index t hmem
  have hlt : (s.targets t).index < (s.groups g).heapSize := hlists.index_lt t hmem
  have hbelow : FitsBelow (fun t => ratio (s'.targets t)) (s.groups g).heapSize (s.targets t).index
      ((s.slots g).heap (s.targets t).index) (s.slots g) := by
    intro i hpos hi hparent
    have hup := parent_lt hpos
    have hne : (s.slots g).heap i ≠ t := by
      intro heq
      have := hlists.heap_injOn _ _ hi hlt (heq.trans htop.symm)
      omega
    calc ratio (s'.targets ((s.slots g).heap (s.targets t).index))
        ≤ ratio (s.targets ((s.slots g).heap (s.targets t).index)) := by
          rw [htop]
          exact ratio_le_ratio (h.max_eq t) hle
      _ ≤ ratio (s.targets ((s.slots g).heap i)) := by
          have hedge := (hs.group g).isHeap i hpos hi
          rw [hparent] at hedge
          exact hedge
      _ = ratio (s'.targets ((s.slots g).heap i)) := (h.ratio_eq hne).symm
  obtain ⟨hlists', hheap', hframe'⟩ :=
    siftUp_isHeap (h.before_iff_ratio hs hfit) hlists hlt (h.holeAt hs) hbelow
  rw [Scheduler.heapAdjust, h.slots_eq, h.index_eq]
  exact h.balanced hs hlists' hheap' hframe'

/-- The update that `acquire` and `release` make before they repair the heap. -/
theorem Reloads.of_set (target : SchedTarget) (group : SchedGroup) (hmember : (s.targets t).group = some g)
    (hgroup : target.group = some g) (hindex : target.index = (s.targets t).index)
    (hmax : target.maxLoad = (s.targets t).maxLoad) (hle : target.curLoad ≤ target.maxLoad)
    (hmaxLoad : group.maxLoad = (s.groups g).maxLoad) (hheap : group.tgHeap = (s.groups g).tgHeap)
    (hsize : group.heapSize = (s.groups g).heapSize)
    (hcur : group.curLoad + (s.targets t).curLoad = (s.groups g).curLoad + target.curLoad) :
    s.Reloads ((s.setTarget t target).setGroup g group) g t := by
  have hother : ∀ t', t' ≠ t → Function.update s.targets t target t' = s.targets t' :=
    fun t' hne => Function.update_of_ne hne _ _
  refine ⟨hmember, ?_, by simpa using hmaxLoad, by simpa using hheap, by simpa using hsize,
    by simpa using hcur, ?_, ?_, ?_, ?_, by simpa using hle⟩
  · intro g' hg
    simp [SameMembers, hg]
  · intro t' hne
    simp [SameLoad, hother t' hne]
  · intro t'
    by_cases heq : t' = t
    · subst heq
      simp [hgroup, hmember]
    · simp [hother t' heq]
  · intro t'
    by_cases heq : t' = t
    · subst heq
      simp [hindex]
    · simp [hother t' heq]
  · intro t'
    by_cases heq : t' = t
    · subst heq
      simp [hmax]
    · simp [hother t' heq]

/-- The load of a target without a group changes. -/
theorem Balanced.of_set_free {target : SchedTarget} (hs : s.Balanced) (hfree : (s.targets t).group = none)
    (hgroup : target.group = none) (hmax : target.maxLoad = (s.targets t).maxLoad)
    (hle : target.curLoad ≤ target.maxLoad) : (s.setTarget t target).Balanced := by
  have hmax' : ∀ t', (Function.update s.targets t target t').maxLoad = (s.targets t').maxLoad := by
    intro t'
    by_cases heq : t' = t
    · subst heq
      rw [Function.update_self, hmax]
    · rw [Function.update_of_ne heq]
  refine ⟨?_, ?_, ?_, ?_⟩
  · intro t'
    rw [setTarget_targets, hmax']
    exact hs.maxLoad_pos t'
  · intro t'
    by_cases heq : t' = t
    · subst heq
      simpa using hle
    · simpa [heq] using hs.curLoad_le t'
  · intro t'
    rw [setTarget_targets, hmax']
    exact hs.maxLoad_lt t'
  · intro g
    refine (hs.group g).congr ⟨rfl, rfl, rfl, rfl⟩ hmax' ?_ ?_
    · intro t' ht'
      have hne : t' ≠ t := by
        rintro rfl
        rw [hfree] at ht'
        cases ht'
      simp [SameLoad, hne]
    · intro t' ht'
      by_cases heq : t' = t
      · subst heq
        simp [hgroup] at ht'
      · simpa [heq] using ht'

end Reload

section Load

variable {s : Scheduler} {g t : Nat}

def taken (target : SchedTarget) : SchedTarget := { target with curLoad := sizeAdd target.curLoad 1 }

def takenGroup (group : SchedGroup) : SchedGroup := { group with curLoad := sizeAdd group.curLoad 1 }

theorem targetTake_of_none (h : (s.targets t).group = none) :
    s.targetTake t = s.setTarget t (taken (s.targets t)) := by
  simp [targetTake, taken, h]

theorem targetTake_of_some (h : (s.targets t).group = some g) :
    s.targetTake t = ((s.setTarget t (taken (s.targets t))).setGroup g (takenGroup (s.groups g))).heapify
      g (s.targets t).index := by
  simp [targetTake, taken, takenGroup, h]

theorem groupTake_eq (h : (s.targets ((s.groups g).tgHeap 0)).group = some g)
    (hindex : (s.targets ((s.groups g).tgHeap 0)).index = 0) :
    s.groupTake g = s.targetTake ((s.groups g).tgHeap 0) := by
  rw [targetTake_of_some h, hindex]
  simp [groupTake, taken, takenGroup]

/-- A target with one connection less, and a thread woken if there was one to wake. -/
def released (pick : Nat) (target : SchedTarget) : SchedTarget :=
  { target with
    curLoad := sizeSub target.curLoad 1
    waiters := if target.waitCnt > 0 then condSignal pick target.waiters else target.waiters }

/-- Its group: the condition of the group is signalled only if nobody waits for the target. -/
def releasedGroup (pick : Nat) (target : SchedTarget) (group : SchedGroup) : SchedGroup :=
  { group with
    curLoad := sizeSub group.curLoad 1
    waiters := if target.waitCnt = 0 ∧ group.waitCnt > 0 then condSignal pick group.waiters
      else group.waiters }

section Fields

variable (pick : Nat) (target : SchedTarget) (group : SchedGroup)

@[simp] theorem taken_maxLoad : (taken target).maxLoad = target.maxLoad := rfl

@[simp] theorem taken_group : (taken target).group = target.group := rfl

@[simp] theorem taken_index : (taken target).index = target.index := rfl

@[simp] theorem takenGroup_maxLoad : (takenGroup group).maxLoad = group.maxLoad := rfl

@[simp] theorem takenGroup_tgHeap : (takenGroup group).tgHeap = group.tgHeap := rfl

@[simp] theorem takenGroup_heapSize : (takenGroup group).heapSize = group.heapSize := rfl

@[simp] theorem released_maxLoad : (released pick target).maxLoad = target.maxLoad := by
  rw [released]

@[simp] theorem released_group : (released pick target).group = target.group := by
  rw [released]

@[simp] theorem released_index : (released pick target).index = target.index := by
  rw [released]

@[simp] theorem releasedGroup_maxLoad : (releasedGroup pick target group).maxLoad = group.maxLoad := by
  rw [releasedGroup]

@[simp] theorem releasedGroup_tgHeap : (releasedGroup pick target group).tgHeap = group.tgHeap := by
  rw [releasedGroup]

@[simp] theorem releasedGroup_heapSize :
    (releasedGroup pick target group).heapSize = group.heapSize := by
  rw [releasedGroup]

end Fields

theorem release_of_none {pick : Nat} (h : (s.targets t).group = none) :
    s.release t pick = s.setTarget t (released pick (s.targets t)) := by
  by_cases hwait : (s.targets t).waitCnt > 0
  · simp [release, released, targetSignal, setTarget, h, hwait]
  · simp [release, released, h, hwait]

theorem release_of_some {pick : Nat} (h : (s.targets t).group = some g) :
    s.release t pick = ((s.setTarget t (released pick (s.targets t))).setGroup g
      (releasedGroup pick (s.targets t) (s.groups g))).heapAdjust g (s.targets t).index := by
  by_cases hwait : (s.targets t).waitCnt > 0
  · have hne : (s.targets t).waitCnt ≠ 0 := by omega
    simp [release, released, releasedGroup, targetSignal, setTarget, h, hwait, hne]
  · have heq : (s.targets t).waitCnt = 0 := by omega
    by_cases hgroup : (s.groups g).waitCnt > 0
    · simp [release, released, releasedGroup, groupSignal, setGroup, h, heq, hgroup]
    · simp [release, released, releasedGroup, h, heq, hgroup]

theorem exists_targetTake_target (s : Scheduler) (t t' : Nat) : ∃ index, (s.targetTake t).targets t'
    = { Function.update s.targets t (taken (s.targets t)) t' with index := index } := by
  cases hgroup : (s.targets t).group with
  | none =>
      rw [targetTake_of_none hgroup]
      exact ⟨_, rfl⟩
  | some g =>
      rw [targetTake_of_some hgroup]
      exact ⟨_, rfl⟩

theorem exists_release_target (s : Scheduler) (t pick t' : Nat) : ∃ index, (s.release t pick).targets t'
    = { Function.update s.targets t (released pick (s.targets t)) t' with index := index } := by
  cases hgroup : (s.targets t).group with
  | none =>
      rw [release_of_none hgroup]
      exact ⟨_, rfl⟩
  | some g =>
      rw [release_of_some hgroup]
      exact ⟨_, rfl⟩

theorem Balanced.sum_curLoad_lt (hs : s.Balanced) (h : (s.targets t).group = some g)
    (hlt : (s.targets t).curLoad < (s.targets t).maxLoad) :
    (s.groups g).curLoad + 1 < sizeModulus := by
  have hgroup := hs.curLoad_lt_iff.2 ⟨t, h, hlt⟩
  have hfits := (hs.group g).fits
  rw [← (hs.group g).maxLoad_eq] at hfits
  omega

theorem Balanced.curLoad_le_group (hs : s.Balanced) (h : (s.targets t).group = some g) :
    (s.targets t).curLoad ≤ (s.groups g).curLoad := by
  rw [(hs.group g).curLoad_eq]
  exact single_le_sum (f := fun t => (s.targets t).curLoad) (fun _ _ => Nat.zero_le _)
    (((hs.group g).mem_members t).2 h)

theorem Balanced.groupLoad_lt (hs : s.Balanced) : (s.groups g).curLoad < sizeModulus := by
  refine lt_of_le_of_lt ?_ (hs.group g).fits
  rw [(hs.group g).curLoad_eq]
  exact sum_le_sum fun t _ => hs.curLoad_le t

theorem Balanced.taken_curLoad (hs : s.Balanced) (hlt : (s.targets t).curLoad < (s.targets t).maxLoad) :
    (taken (s.targets t)).curLoad = (s.targets t).curLoad + 1 := by
  have := hs.maxLoad_lt t
  exact sizeAdd_of_lt (by omega)

theorem Balanced.released_curLoad (hs : s.Balanced) (pick : Nat) (hpos : 0 < (s.targets t).curLoad) :
    (released pick (s.targets t)).curLoad = (s.targets t).curLoad - 1 := by
  have hle := hs.curLoad_le t
  have hlt := hs.maxLoad_lt t
  exact sizeSub_of_le hpos (by omega)

theorem Balanced.targetTake (hs : s.Balanced) (hlt : (s.targets t).curLoad < (s.targets t).maxLoad)
    (hfit : (s.targetTake t).ProductsFit) : (s.targetTake t).Balanced := by
  have hcur := hs.taken_curLoad hlt
  have hle : (taken (s.targets t)).curLoad ≤ (taken (s.targets t)).maxLoad := by
    rw [hcur]
    exact hlt
  cases hgroup : (s.targets t).group with
  | none =>
      rw [targetTake_of_none hgroup]
      exact hs.of_set_free hgroup hgroup rfl hle
  | some g =>
      have hsum : (takenGroup (s.groups g)).curLoad = (s.groups g).curLoad + 1 :=
        sizeAdd_of_lt (hs.sum_curLoad_lt hgroup hlt)
      have hreload := Reloads.of_set (taken (s.targets t)) (takenGroup (s.groups g))
        hgroup hgroup rfl rfl hle rfl rfl rfl (by omega)
      rw [targetTake_of_some hgroup] at hfit ⊢
      have hindex := hreload.index_eq t
      rw [← hindex]
      refine hreload.heapify hs hfit ?_
      simp [hcur]

theorem Balanced.release {pick : Nat} (hs : s.Balanced) (hpos : 0 < (s.targets t).curLoad)
    (hfit : (s.release t pick).ProductsFit) : (s.release t pick).Balanced := by
  have hcur := hs.released_curLoad pick hpos
  have hle : (released pick (s.targets t)).curLoad ≤ (released pick (s.targets t)).maxLoad := by
    rw [hcur, released_maxLoad]
    have := hs.curLoad_le t
    omega
  cases hgroup : (s.targets t).group with
  | none =>
      rw [release_of_none hgroup]
      exact hs.of_set_free hgroup (by simp [hgroup]) (released_maxLoad ..) hle
  | some g =>
      have hle' := hs.curLoad_le_group hgroup
      have hsum : (releasedGroup pick (s.targets t) (s.groups g)).curLoad = (s.groups g).curLoad - 1 :=
        sizeSub_of_le (by omega) hs.groupLoad_lt
      have hreload := Reloads.of_set (released pick (s.targets t))
        (releasedGroup pick (s.targets t) (s.groups g)) hgroup (by simp [hgroup])
        (released_index ..) (released_maxLoad ..) hle (releasedGroup_maxLoad ..)
        (releasedGroup_tgHeap ..) (releasedGroup_heapSize ..) (by omega)
      rw [release_of_some hgroup] at hfit ⊢
      have hindex := hreload.index_eq t
      rw [← hindex]
      refine hreload.heapAdjust hs hfit ?_
      simp [hcur]

end Load

section Membership

variable {s : Scheduler} {g t : Nat}

/-- The scheduler after the target `t` has joined or left the group `g`. -/
def regroup (g t : Nat) (membership : Option Nat) (group : SchedGroup) (σ : Slots Nat) (s : Scheduler) :
    Scheduler :=
  { targets := fun t' =>
      { s.targets t' with
        index := σ.index t'
        group := if t' = t then membership else (s.targets t').group }
    groups := Function.update s.groups g { group with tgHeap := σ.heap } }

/-- The slots of the group once the target has gone up from the new last slot. -/
def joinedSlots (g t : Nat) (s : Scheduler) : Slots Nat :=
  siftUp s.before (s.groups g).heapSize ((s.slots g).put (s.groups g).heapSize t)

/-- The group with a member more. If its threads wait and it has a free connection, one of them is woken. -/
def joinedGroup (pick : Nat) (target : SchedTarget) (group : SchedGroup) : SchedGroup :=
  let maxLoad := sizeAdd group.maxLoad target.maxLoad
  let curLoad := sizeAdd group.curLoad target.curLoad
  { group with
    maxLoad := maxLoad
    curLoad := curLoad
    heapSize := group.heapSize + 1
    heapBufSize :=
      if group.heapSize = group.heapBufSize then 2 * group.heapBufSize else group.heapBufSize
    waiters := if group.waitCnt > 0 ∧ curLoad < maxLoad then condSignal pick group.waiters
      else group.waiters }

/-- The slots of the group without the target: the last member takes its place and finds its own. -/
def leftSlots (g t : Nat) (s : Scheduler) : Slots Nat :=
  let size := (s.groups g).heapSize - 1
  if (s.targets t).index ≠ size then
    let last := (s.groups g).tgHeap size
    let σ := siftUp s.before (s.targets t).index ((s.slots g).put (s.targets t).index last)
    siftDown s.before size (σ.index last) σ
  else
    s.slots g

def leftGroup (target : SchedTarget) (group : SchedGroup) : SchedGroup :=
  { group with
    maxLoad := sizeSub group.maxLoad target.maxLoad
    curLoad := sizeSub group.curLoad target.curLoad
    heapSize := group.heapSize - 1 }

theorem setSlots_setSlots (σ σ' : Slots Nat) : (s.setSlots g σ).setSlots g σ' = s.setSlots g σ' := by
  simp [setSlots]

theorem heapAdjust_setSlots (k : Nat) (σ : Slots Nat) :
    (s.setSlots g σ).heapAdjust g k = s.setSlots g (siftUp s.before k σ) := by
  rw [heapAdjust, setSlots_slots, setSlots_setSlots]
  rfl

theorem heapify_setSlots (k : Nat) (σ : Slots Nat) :
    (s.setSlots g σ).heapify g k = s.setSlots g (siftDown s.before (s.groups g).heapSize k σ) := by
  rw [heapify, setSlots_slots, setSlots_setSlots, setSlots_groups, Function.update_self]
  rfl

theorem setSlots_setGroup (group : SchedGroup) (σ : Slots Nat) :
    (s.setGroup g group).setSlots g σ
      = (s.setSlots g σ).setGroup g { group with tgHeap := σ.heap } := by
  simp [setSlots, setGroup]

theorem setGroup_setGroup (group group' : SchedGroup) :
    (s.setGroup g group).setGroup g group' = s.setGroup g group' := by
  simp [setGroup]

theorem heapInsert_eq {realloc : Bool} {s' : Scheduler} (h : s.heapInsert g t realloc = some s') :
    s' = (s.setSlots g (s.joinedSlots g t)).setGroup g { s.groups g with
      tgHeap := (s.joinedSlots g t).heap
      heapSize := (s.groups g).heapSize + 1
      heapBufSize :=
        if (s.groups g).heapSize = (s.groups g).heapBufSize then 2 * (s.groups g).heapBufSize
        else (s.groups g).heapBufSize } := by
  have hslots : ∀ size, siftUp (s.setGroup g { s.groups g with heapBufSize := size }).before
      (s.groups g).heapSize (((s.setGroup g { s.groups g with heapBufSize := size }).slots g).put
        (s.groups g).heapSize t) = s.joinedSlots g t := by
    intro size
    rw [show (s.setGroup g { s.groups g with heapBufSize := size }).slots g = s.slots g from
      setGroup_slots s g rfl]
    rfl
  by_cases hfull : (s.groups g).heapSize = (s.groups g).heapBufSize ∧ realloc = false
  · simp [heapInsert, hfull] at h
  · simp only [heapInsert, if_neg hfull, Option.some.injEq] at h
    rw [← h, heapAdjust_setSlots, hslots, setSlots_setGroup, setGroup_setGroup]
    simp

/-- The change of `group` in the scheduler whose slots have been set. -/
theorem setTarget_setSlots (membership : Option Nat) (group : SchedGroup) (σ : Slots Nat) :
    ((s.setSlots g σ).setTarget t { (s.setSlots g σ).targets t with group := membership }).setGroup g
      { group with tgHeap := σ.heap } = s.regroup g t membership group σ := by
  have htargets : Function.update (fun t' => { s.targets t' with index := σ.index t' }) t
      { s.targets t with index := σ.index t, group := membership }
      = fun t' => { s.targets t' with
          index := σ.index t'
          group := if t' = t then membership else (s.targets t').group } := by
    funext t'
    by_cases heq : t' = t
    · subst heq
      rw [Function.update_self, if_pos rfl]
    · rw [Function.update_of_ne heq, if_neg heq]
  simp [regroup, setTarget, setGroup, setSlots, htargets]

theorem add_eq {realloc : Bool} {pick : Nat} (h : (s.add g t realloc pick).2 = .done) :
    (s.targets t).group = none ∧ (s.targets t).waitCnt = 0
      ∧ (s.add g t realloc pick).1
        = s.regroup g t (some g) (joinedGroup pick (s.targets t) (s.groups g)) (s.joinedSlots g t) := by
  by_cases hfree : (s.targets t).group = none ∧ (s.targets t).waitCnt = 0
  · refine ⟨hfree.1, hfree.2, ?_⟩
    cases hinsert : s.heapInsert g t realloc with
    | none => simp [add, hfree, hinsert] at h
    | some s' =>
        have hinsert' := heapInsert_eq hinsert
        subst hinsert'
        rw [← setTarget_setSlots]
        by_cases hsignal : (s.groups g).waitCnt > 0
            ∧ sizeAdd (s.groups g).curLoad (s.targets t).curLoad
              < sizeAdd (s.groups g).maxLoad (s.targets t).maxLoad
        · simp [add, hfree, hinsert, hsignal, joinedGroup, groupSignal, setTarget, setGroup]
        · simp [add, hfree, hinsert, hsignal, joinedGroup, setTarget, setGroup]
  · simp only [add, if_neg hfree] at h
    split_ifs at h

theorem setSlots_self : s.setSlots g (s.slots g) = s := by
  simp [setSlots, slots]

theorem heapRemove_eq : s.heapRemove g (s.targets t).index
    = (s.setSlots g (s.leftSlots g t)).setGroup g { s.groups g with
        tgHeap := (s.leftSlots g t).heap
        heapSize := (s.groups g).heapSize - 1 } := by
  have hslots : (s.setGroup g { s.groups g with heapSize := (s.groups g).heapSize - 1 }).slots g
      = s.slots g := setGroup_slots s g rfl
  by_cases hlast : (s.targets t).index = (s.groups g).heapSize - 1
  · simp only [heapRemove, leftSlots, setGroup_groups, Function.update_self, hlast, ne_eq,
      not_true_eq_false, if_false, setSlots_self]
    rfl
  · simp only [heapRemove, leftSlots, setGroup_groups, Function.update_self, hlast, ne_eq,
      not_false_eq_true, if_true, heapAdjust_setSlots, heapify_setSlots, hslots]
    rw [setSlots_setGroup]
    rfl

theorem remove_eq (h : (s.remove g t).2 = .done) :
    (s.targets t).group = some g ∧ (s.targets t).waitCnt = 0
      ∧ (s.remove g t).1
        = s.regroup g t none (leftGroup (s.targets t) (s.groups g)) (s.leftSlots g t) := by
  by_cases hmember : (s.targets t).group = some g ∧ (s.targets t).waitCnt = 0
  · refine ⟨hmember.1, hmember.2, ?_⟩
    have hremove := heapRemove_eq (s := s) (g := g) (t := t)
    rw [← setTarget_setSlots]
    simp [remove, hmember, hremove, leftGroup, setTarget, setGroup]
  · simp only [remove, if_neg hmember] at h
    split_ifs at h

/-- What joining and leaving have to show for the group in question. -/
theorem Balanced.regroup {membership : Option Nat} {group : SchedGroup} {σ : Slots Nat} {M : Finset Nat}
    (hs : s.Balanced) (hbefore : (s.targets t).group = none ∨ (s.targets t).group = some g)
    (hafter : membership = none ∨ membership = some g)
    (hM : ∀ t', t' ∈ M ↔ (if t' = t then membership else (s.targets t').group) = some g)
    (hlists : Lists M group.heapSize σ)
    (hheap : IsHeap (fun t => ratio (s.targets t)) group.heapSize σ)
    (hframe : ∀ t', t' ∉ s.members g → t' ≠ t → σ.index t' = (s.targets t').index)
    (hmax : group.maxLoad = ∑ t ∈ M, (s.targets t).maxLoad)
    (hcur : group.curLoad = ∑ t ∈ M, (s.targets t).curLoad)
    (hfit : ∑ t ∈ M, (s.targets t).maxLoad < sizeModulus) :
    (s.regroup g t membership group σ).Balanced := by
  refine ⟨hs.maxLoad_pos, hs.curLoad_le, hs.maxLoad_lt, ?_⟩
  intro g'
  by_cases hg : g' = g
  · subst hg
    have hslots : (s.regroup g' t membership group σ).slots g' = σ := by
      simp [slots, Scheduler.regroup]
    have hgroup : (s.regroup g' t membership group σ).groups g' = { group with tgHeap := σ.heap } := by
      simp [Scheduler.regroup]
    refine GroupBalanced.of_lists hM ?_ ?_ ?_ ?_ hfit
    · rw [hslots, hgroup]
      exact hlists
    · rw [hslots, hgroup]
      exact hheap
    · rw [hgroup]
      exact hmax
    · rw [hgroup]
      exact hcur
  · have hgroup : (s.regroup g t membership group σ).groups g' = s.groups g' := by
      simp [Scheduler.regroup, hg]
    have hne : ∀ t', (s.targets t').group = some g' → t' ≠ t ∧ t' ∉ s.members g := by
      intro t' ht'
      have hother : (s.targets t').group ≠ some g := by
        rw [ht']
        exact fun heq => hg (Option.some.inj heq)
      refine ⟨?_, fun hmem => hother (((hs.group g).mem_members t').1 hmem)⟩
      rintro rfl
      obtain hnone | hsome := hbefore
      · rw [hnone] at ht'
        cases ht'
      · exact hother hsome
    refine (hs.group g').congr ?_ (fun _ => rfl) ?_ ?_
    · rw [hgroup]
      exact ⟨rfl, rfl, rfl, rfl⟩
    · intro t' ht'
      obtain ⟨hnet, hout⟩ := hne t' ht'
      exact ⟨if_neg hnet, rfl, hframe t' hout hnet⟩
    · intro t' ht'
      by_cases heq : t' = t
      · simp only [Scheduler.regroup, if_pos heq] at ht'
        obtain hnone | hsome := hafter
        · rw [hnone] at ht'
          cases ht'
        · rw [hsome] at ht'
          exact absurd (Option.some.inj ht').symm hg
      · simpa only [Scheduler.regroup, if_neg heq] using ht'

theorem Balanced.before_iff_regroup {membership : Option Nat} {group : SchedGroup} {σ : Slots Nat}
    {M : Finset Nat} (hs : s.Balanced)
    (hM : ∀ t', t' ∈ M ↔ (if t' = t then membership else (s.targets t').group) = some g)
    (hfit : (s.regroup g t membership group σ).ProductsFit) :
    ∀ a ∈ M, ∀ b ∈ M, (s.before a b = true ↔ ratio (s.targets a) < ratio (s.targets b)) := by
  intro a ha b hb
  exact before_iff (hs.maxLoad_pos a) (hs.maxLoad_pos b)
    (hfit g a b ((hM a).1 ha) ((hM b).1 hb)) (hfit g b a ((hM b).1 hb) ((hM a).1 ha))

theorem Balanced.add {realloc : Bool} {pick : Nat} (hs : s.Balanced)
    (hdone : (s.add g t realloc pick).2 = .done) (hfit : (s.add g t realloc pick).1.ProductsFit)
    (hsum : (s.add g t realloc pick).1.SumsFit) : (s.add g t realloc pick).1.Balanced := by
  obtain ⟨hfree, -, heq⟩ := add_eq hdone
  rw [heq] at hfit hsum ⊢
  have hlists := (hs.group g).lists
  have hnot : t ∉ s.members g := by
    rw [(hs.group g).mem_members, hfree]
    simp
  have hM : ∀ t', t' ∈ insert t (s.members g)
      ↔ (if t' = t then some g else (s.targets t').group) = some g := by
    intro t'
    rw [mem_insert, (hs.group g).mem_members]
    by_cases heq : t' = t <;> simp [heq]
  obtain ⟨hlists', hheap', hframe'⟩ := siftUp_isHeap (hs.before_iff_regroup hM hfit)
    (hlists.insert hnot) (Nat.lt_succ_self _) (hs.group g).isHeap.holeAt_last fitsBelow_last
  have hmembers : (s.regroup g t (some g) (joinedGroup pick (s.targets t) (s.groups g))
      (s.joinedSlots g t)).members g = insert t (s.members g) := by
    simp only [members, Scheduler.regroup, Function.update_self]
    exact hlists'.image_heap
  have hroom : ∑ t' ∈ insert t (s.members g), (s.targets t').maxLoad < sizeModulus := by
    have hroom := hsum g
    rw [hmembers] at hroom
    exact hroom
  have hroom' := hroom
  have hgcur : (s.groups g).curLoad ≤ (s.groups g).maxLoad := by
    rw [(hs.group g).curLoad_eq, (hs.group g).maxLoad_eq]
    exact sum_le_sum fun t' _ => hs.curLoad_le t'
  have htcur := hs.curLoad_le t
  rw [sum_insert hnot, ← (hs.group g).maxLoad_eq] at hroom'
  refine hs.regroup (Or.inl hfree) (Or.inr rfl) hM hlists' hheap' ?_ ?_ ?_ hroom
  · intro t' hout hne
    have hout' : t' ∉ insert t (s.members g) := by simp [hne, hout]
    exact (hframe' t' hout').trans (Slots.put_index_of_ne hne)
  · rw [sum_insert hnot, ← (hs.group g).maxLoad_eq, Nat.add_comm]
    exact sizeAdd_of_lt (by omega)
  · rw [sum_insert hnot, ← (hs.group g).curLoad_eq, Nat.add_comm]
    exact sizeAdd_of_lt (by omega)

/-- The slots that the other members of a group are left in. -/
theorem Balanced.leftSlots {n : Nat} (hs : s.Balanced) (hmember : (s.targets t).group = some g)
    (hn : (s.groups g).heapSize = n + 1)
    (hless : ∀ a ∈ (s.members g).erase t, ∀ b ∈ (s.members g).erase t,
      (s.before a b = true ↔ ratio (s.targets a) < ratio (s.targets b))) :
    Lists ((s.members g).erase t) n (s.leftSlots g t)
      ∧ IsHeap (fun t => ratio (s.targets t)) n (s.leftSlots g t)
      ∧ ∀ t', t' ∉ s.members g → t' ≠ t → (s.leftSlots g t).index t' = (s.targets t').index := by
  have hlists := (hs.group g).lists
  have hheap := (hs.group g).isHeap
  have hmem := ((hs.group g).mem_members t).2 hmember
  have hindex : (s.targets t).index < (s.groups g).heapSize := hlists.index_lt t hmem
  have htop : (s.slots g).heap (s.targets t).index = t := hlists.heap_index t hmem
  rw [hn] at hlists hheap hindex
  by_cases hlast : (s.targets t).index = n
  · rw [hlast] at htop
    have hsame : s.leftSlots g t = s.slots g := by
      simp [Scheduler.leftSlots, hn, hlast]
    rw [hsame]
    refine ⟨?_, hheap.pred, fun t' _ _ => rfl⟩
    have herase := hlists.erase_last
    rw [htop] at herase
    exact herase
  · have hlt : (s.targets t).index < n := by omega
    have hswap := hlists.erase_swap hlt
    rw [htop] at hswap
    have hhole : HoleAt (fun t => ratio (s.targets t)) n (s.targets t).index
        ((s.slots g).put (s.targets t).index ((s.slots g).heap n)) :=
      (hheap.pred.holeAt hlt fun _ _ _ => rfl).put
    obtain ⟨hlists', hheap', hframe'⟩ := siftDown_siftUp_isHeap hless hswap hlt hhole
    rw [Slots.put_heap_self] at hlists' hheap' hframe'
    have hleft : s.leftSlots g t = siftDown s.before n
        ((siftUp s.before (s.targets t).index
          ((s.slots g).put (s.targets t).index ((s.slots g).heap n))).index ((s.slots g).heap n))
        (siftUp s.before (s.targets t).index
          ((s.slots g).put (s.targets t).index ((s.slots g).heap n))) := by
      simp [Scheduler.leftSlots, hn, hlast, slots]
    rw [hleft]
    refine ⟨hlists', hheap', ?_⟩
    intro t' hout hne
    have hout' : t' ∉ (s.members g).erase t := fun hin => hout (mem_of_mem_erase hin)
    have hnot : t' ≠ (s.slots g).heap n := by
      rintro rfl
      exact hout (hlists.mem n (Nat.lt_succ_self n))
    exact (hframe' t' hout').trans (Slots.put_index_of_ne hnot)

theorem Balanced.remove (hs : s.Balanced) (hdone : (s.remove g t).2 = .done)
    (hfit : (s.remove g t).1.ProductsFit) : (s.remove g t).1.Balanced := by
  obtain ⟨hmember, -, heq⟩ := remove_eq hdone
  rw [heq] at hfit ⊢
  have hmem := ((hs.group g).mem_members t).2 hmember
  have hindex : (s.targets t).index < (s.groups g).heapSize := (hs.group g).lists.index_lt t hmem
  obtain ⟨n, hn⟩ : ∃ n, (s.groups g).heapSize = n + 1 := ⟨(s.groups g).heapSize - 1, by omega⟩
  have hM : ∀ t', t' ∈ (s.members g).erase t
      ↔ (if t' = t then none else (s.targets t').group) = some g := by
    intro t'
    rw [mem_erase, (hs.group g).mem_members]
    by_cases heq : t' = t <;> simp [heq]
  obtain ⟨hlists', hheap', hframe'⟩ := hs.leftSlots hmember hn (hs.before_iff_regroup hM hfit)
  have hsize : (leftGroup (s.targets t) (s.groups g)).heapSize = n := by
    simp [leftGroup, hn]
  have hmax := add_sum_erase (s.members g) (fun t' => (s.targets t').maxLoad) hmem
  have hcur := add_sum_erase (s.members g) (fun t' => (s.targets t').curLoad) hmem
  have hroom := (hs.group g).fits
  have hgroup := hs.groupLoad_lt (g := g)
  rw [← (hs.group g).maxLoad_eq] at hmax hroom
  rw [← (hs.group g).curLoad_eq] at hcur
  refine hs.regroup (Or.inr hmember) (Or.inl rfl) hM ?_ ?_ hframe' ?_ ?_ ?_
  · rw [hsize]
    exact hlists'
  · rw [hsize]
    exact hheap'
  · have hsub : (leftGroup (s.targets t) (s.groups g)).maxLoad
        = (s.groups g).maxLoad - (s.targets t).maxLoad := sizeSub_of_le (by omega) hroom
    omega
  · have hsub : (leftGroup (s.targets t) (s.groups g)).curLoad
        = (s.groups g).curLoad - (s.targets t).curLoad := sizeSub_of_le (by omega) hgroup
    omega
  · omega

end Membership

end Scheduler

end WorkflowModel.Kernel.CommScheduler
