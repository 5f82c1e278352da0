import WorkflowModel.Kernel.CommScheduler
import Mathlib.Algebra.BigOperators.Group.Finset.Basic
import Mathlib.Algebra.Order.BigOperators.Group.Finset
import Mathlib.Algebra.Order.Field.Rat
import Mathlib.Tactic.Positivity
import Mathlib.Tactic.FieldSimp
import Mathlib.Tactic.GCongr

/-!
# The load of a group

The heap of a group is in order by the ratio of the two loads of its members, and the loads of the group are
the sums of theirs. Each operation changes one group at a time: its slots, the load of one member, and the
two sums. The comparison of the code multiplies crosswise instead of dividing, which is the order by the
ratio as long as the products do not wrap around.
-/

namespace WorkflowModel.Kernel.CommScheduler

open WorkflowModel BinaryHeap Finset

def ratio (target : SchedTarget) : ℚ := (target.curLoad : ℚ) / target.maxLoad

namespace Scheduler

def members (s : Scheduler) (g : Nat) : Finset Nat :=
  (range (s.groups g).heapSize).image (s.groups g).tgHeap

/-- The products that `target_cmp` forms for two members of one group are below `2^64`. -/
def ProductsFit (s : Scheduler) : Prop :=
  ∀ g t t', (s.targets t).group = some g → (s.targets t').group = some g →
    (s.targets t).curLoad * (s.targets t').maxLoad < sizeModulus

/-- The `max_load` of a group has room for the sum over its members. -/
def SumsFit (s : Scheduler) : Prop :=
  ∀ g, ∑ t ∈ s.members g, (s.targets t).maxLoad < sizeModulus

/-- The slots of a group list its members in the order of a heap, and its loads are the sums. -/
structure GroupBalanced (s : Scheduler) (g : Nat) : Prop where
  mem_members : ∀ t, t ∈ s.members g ↔ (s.targets t).group = some g
  lists : Lists (s.members g) (s.groups g).heapSize (s.slots g)
  isHeap : IsHeap (fun t => ratio (s.targets t)) (s.groups g).heapSize (s.slots g)
  maxLoad_eq : (s.groups g).maxLoad = ∑ t ∈ s.members g, (s.targets t).maxLoad
  curLoad_eq : (s.groups g).curLoad = ∑ t ∈ s.members g, (s.targets t).curLoad
  fits : ∑ t ∈ s.members g, (s.targets t).maxLoad < sizeModulus

structure Balanced (s : Scheduler) : Prop where
  maxLoad_pos : ∀ t, 0 < (s.targets t).maxLoad
  curLoad_le : ∀ t, (s.targets t).curLoad ≤ (s.targets t).maxLoad
  maxLoad_lt : ∀ t, (s.targets t).maxLoad < sizeModulus
  group : ∀ g, s.GroupBalanced g

section Fields

variable (s : Scheduler) (g t : Nat)

@[simp] theorem setTarget_targets (target : SchedTarget) :
    (s.setTarget t target).targets = Function.update s.targets t target := rfl

@[simp] theorem setTarget_groups (target : SchedTarget) : (s.setTarget t target).groups = s.groups := rfl

@[simp] theorem setGroup_targets (group : SchedGroup) : (s.setGroup g group).targets = s.targets := rfl

@[simp] theorem setGroup_groups (group : SchedGroup) :
    (s.setGroup g group).groups = Function.update s.groups g group := rfl

@[simp] theorem setSlots_targets (σ : Slots Nat) :
    (s.setSlots g σ).targets = fun t => { s.targets t with index := σ.index t } := rfl

@[simp] theorem setSlots_groups (σ : Slots Nat) :
    (s.setSlots g σ).groups = Function.update s.groups g { s.groups g with tgHeap := σ.heap } := rfl

theorem setSlots_slots (σ : Slots Nat) : (s.setSlots g σ).slots g = σ := by
  simp [slots]

theorem setGroup_slots {group : SchedGroup} (h : group.tgHeap = (s.groups g).tgHeap) :
    (s.setGroup g group).slots g = s.slots g := by
  simp [slots, h]

end Fields

theorem ratio_lt_ratio_iff {target1 target2 : SchedTarget} (h1 : 0 < target1.maxLoad)
    (h2 : 0 < target2.maxLoad) :
    ratio target1 < ratio target2
      ↔ target1.curLoad * target2.maxLoad < target2.curLoad * target1.maxLoad := by
  have h1' : (0 : ℚ) < target1.maxLoad := by exact_mod_cast h1
  have h2' : (0 : ℚ) < target2.maxLoad := by exact_mod_cast h2
  rw [ratio, ratio, div_lt_div_iff₀ h1' h2']
  exact_mod_cast Iff.rfl

theorem ratio_le_ratio {target1 target2 : SchedTarget} (hmax : target1.maxLoad = target2.maxLoad)
    (hcur : target1.curLoad ≤ target2.curLoad) : ratio target1 ≤ ratio target2 := by
  have hcur' : (target1.curLoad : ℚ) ≤ target2.curLoad := by exact_mod_cast hcur
  rw [ratio, ratio, hmax]
  gcongr

theorem before_iff {s : Scheduler} {t t' : Nat} (h : 0 < (s.targets t).maxLoad)
    (h' : 0 < (s.targets t').maxLoad)
    (hfit : (s.targets t).curLoad * (s.targets t').maxLoad < sizeModulus)
    (hfit' : (s.targets t').curLoad * (s.targets t).maxLoad < sizeModulus) :
    s.before t t' = true ↔ ratio (s.targets t) < ratio (s.targets t') := by
  rw [ratio_lt_ratio_iff h h']
  simp only [before, targetCmp, sizeMul, Nat.mod_eq_of_lt hfit, Nat.mod_eq_of_lt hfit',
    decide_eq_true_eq]
  split_ifs with hless hmore
  · simp [hless]
  · simp [hless]
  · simp [hless]

def SameLoad (target target' : SchedTarget) : Prop :=
  target'.group = target.group ∧ target'.curLoad = target.curLoad ∧ target'.index = target.index

def SameMembers (group group' : SchedGroup) : Prop :=
  group'.maxLoad = group.maxLoad ∧ group'.curLoad = group.curLoad ∧ group'.tgHeap = group.tgHeap
    ∧ group'.heapSize = group.heapSize

/-- A group none of whose members has changed. -/
theorem GroupBalanced.congr {s s' : Scheduler} {g : Nat} (h : s.GroupBalanced g)
    (hgroup : SameMembers (s.groups g) (s'.groups g))
    (hmax : ∀ t, (s'.targets t).maxLoad = (s.targets t).maxLoad)
    (htargets : ∀ t, (s.targets t).group = some g → SameLoad (s.targets t) (s'.targets t))
    (hnew : ∀ t, (s'.targets t).group = some g → (s.targets t).group = some g) :
    s'.GroupBalanced g := by
  obtain ⟨hmaxLoad, hcurLoad, hheap, hsize⟩ := hgroup
  have hmembers : s'.members g = s.members g := by
    rw [members, members, hheap, hsize]
  have hmem : ∀ i, i < (s.groups g).heapSize → (s.targets ((s.groups g).tgHeap i)).group = some g :=
    fun i hi => (h.mem_members _).1 (h.lists.mem i hi)
  have hratio : ∀ i, i < (s.groups g).heapSize →
      ratio (s'.targets ((s.groups g).tgHeap i)) = ratio (s.targets ((s.groups g).tgHeap i)) := by
    intro i hi
    rw [ratio, ratio, hmax, (htargets _ (hmem i hi)).2.1]
  have hindex : ∀ t, t ∈ s.members g → (s'.targets t).index = (s.targets t).index :=
    fun t ht => (htargets t ((h.mem_members t).1 ht)).2.2
  refine ⟨?_, ⟨?_, ?_, ?_, ?_⟩, ?_, ?_, ?_, ?_⟩
  · intro t
    rw [hmembers, h.mem_members]
    constructor
    · intro hg
      rw [(htargets t hg).1, hg]
    · exact hnew t
  · intro i hi
    rw [hsize] at hi
    simp only [slots, hheap, hmembers]
    exact h.lists.mem i hi
  · intro i hi
    rw [hsize] at hi
    simp only [slots, hheap]
    exact (hindex _ (h.lists.mem i hi)).trans (h.lists.index_heap i hi)
  · intro t ht
    rw [hmembers] at ht
    simp only [slots, hsize]
    rw [hindex t ht]
    exact h.lists.index_lt t ht
  · intro t ht
    rw [hmembers] at ht
    simp only [slots, hheap]
    rw [hindex t ht]
    exact h.lists.heap_index t ht
  · intro i hpos hi
    rw [hsize] at hi
    have hlt := parent_lt hpos
    simp only [slots, hheap]
    rw [hratio i hi, hratio (parent i) (by omega)]
    exact h.isHeap i hpos hi
  · rw [hmaxLoad, hmembers, h.maxLoad_eq]
    exact sum_congr rfl fun t _ => (hmax t).symm
  · rw [hcurLoad, hmembers, h.curLoad_eq]
    exact sum_congr rfl fun t ht => (htargets t ((h.mem_members t).1 ht)).2.1.symm
  · rw [hmembers]
    simp only [hmax]
    exact h.fits

theorem GroupBalanced.of_lists {s : Scheduler} {g : Nat} {M : Finset Nat}
    (hmem : ∀ t, t ∈ M ↔ (s.targets t).group = some g)
    (hlists : Lists M (s.groups g).heapSize (s.slots g))
    (hheap : IsHeap (fun t => ratio (s.targets t)) (s.groups g).heapSize (s.slots g))
    (hmax : (s.groups g).maxLoad = ∑ t ∈ M, (s.targets t).maxLoad)
    (hcur : (s.groups g).curLoad = ∑ t ∈ M, (s.targets t).curLoad)
    (hfit : ∑ t ∈ M, (s.targets t).maxLoad < sizeModulus) : s.GroupBalanced g := by
  have hM : s.members g = M := hlists.image_heap
  subst hM
  exact ⟨hmem, hlists, hheap, hmax, hcur, hfit⟩

/-- Changes that touch neither slots nor loads nor groups of targets. -/
theorem Balanced.congr {s s' : Scheduler} (h : s.Balanced)
    (hgroups : ∀ g, SameMembers (s.groups g) (s'.groups g))
    (hmax : ∀ t, (s'.targets t).maxLoad = (s.targets t).maxLoad)
    (htargets : ∀ t, SameLoad (s.targets t) (s'.targets t)) : s'.Balanced := by
  refine ⟨?_, ?_, ?_, ?_⟩
  · intro t
    rw [hmax]
    exact h.maxLoad_pos t
  · intro t
    rw [hmax, (htargets t).2.1]
    exact h.curLoad_le t
  · intro t
    rw [hmax]
    exact h.maxLoad_lt t
  · intro g
    refine (h.group g).congr (hgroups g) hmax (fun t _ => htargets t) ?_
    intro t ht
    rw [← (htargets t).1, ht]

section Acquire

variable {s : Scheduler} {g : Nat}

theorem Balanced.curLoad_lt_iff (h : s.Balanced) :
    (s.groups g).curLoad < (s.groups g).maxLoad
      ↔ ∃ t, (s.targets t).group = some g ∧ (s.targets t).curLoad < (s.targets t).maxLoad := by
  rw [(h.group g).curLoad_eq, (h.group g).maxLoad_eq]
  constructor
  · intro hlt
    obtain ⟨t, ht, hcur⟩ := exists_lt_of_sum_lt hlt
    exact ⟨t, ((h.group g).mem_members t).1 ht, hcur⟩
  · rintro ⟨t, ht, hcur⟩
    exact sum_lt_sum (fun t' _ => h.curLoad_le t') ⟨t, ((h.group g).mem_members t).2 ht, hcur⟩

theorem GroupBalanced.top (h : s.GroupBalanced g) (hpos : 0 < (s.groups g).heapSize) :
    (s.targets ((s.groups g).tgHeap 0)).group = some g
      ∧ (s.targets ((s.groups g).tgHeap 0)).index = 0
      ∧ ∀ t, (s.targets t).group = some g →
        ratio (s.targets ((s.groups g).tgHeap 0)) ≤ ratio (s.targets t) := by
  refine ⟨(h.mem_members _).1 (h.lists.mem 0 hpos), h.lists.index_heap 0 hpos, ?_⟩
  intro t ht
  have hmem := (h.mem_members t).2 ht
  have hle := h.isHeap.root_le _ (h.lists.index_lt t hmem)
  rw [h.lists.heap_index t hmem] at hle
  exact hle

/-- A group with a free connection has one at the first target of its heap. -/
theorem Balanced.top_free (h : s.Balanced) (hlt : (s.groups g).curLoad < (s.groups g).maxLoad) :
    (s.targets ((s.groups g).tgHeap 0)).group = some g
      ∧ (s.targets ((s.groups g).tgHeap 0)).index = 0
      ∧ (s.targets ((s.groups g).tgHeap 0)).curLoad < (s.targets ((s.groups g).tgHeap 0)).maxLoad
      ∧ ∀ t, (s.targets t).group = some g →
        ratio (s.targets ((s.groups g).tgHeap 0)) ≤ ratio (s.targets t) := by
  obtain ⟨t, ht, hcur⟩ := h.curLoad_lt_iff.1 hlt
  have hlists := (h.group g).lists
  have hmem := ((h.group g).mem_members t).2 ht
  have hpos : 0 < (s.groups g).heapSize := (Nat.zero_le _).trans_lt (hlists.index_lt t hmem)
  obtain ⟨hgroup, hindex, hleast⟩ := (h.group g).top hpos
  refine ⟨hgroup, hindex, ?_, hleast⟩
  -- a ratio below that of `t` is below 1
  have hle := not_lt.2 (hleast t ht)
  rw [ratio_lt_ratio_iff (h.maxLoad_pos _) (h.maxLoad_pos _)] at hle
  refine not_le.1 ?_
  intro hfull
  have hpos' := h.maxLoad_pos ((s.groups g).tgHeap 0)
  have hstrict : (s.targets t).curLoad * (s.targets ((s.groups g).tgHeap 0)).maxLoad
      < (s.targets ((s.groups g).tgHeap 0)).curLoad * (s.targets t).maxLoad := by
    calc (s.targets t).curLoad * (s.targets ((s.groups g).tgHeap 0)).maxLoad
        < (s.targets t).maxLoad * (s.targets ((s.groups g).tgHeap 0)).maxLoad :=
          Nat.mul_lt_mul_of_pos_right hcur hpos'
      _ ≤ (s.targets t).maxLoad * (s.targets ((s.groups g).tgHeap 0)).curLoad :=
          Nat.mul_le_mul_left _ hfull
      _ = (s.targets ((s.groups g).tgHeap 0)).curLoad * (s.targets t).maxLoad := Nat.mul_comm _ _
  exact hle hstrict

end Acquire

end Scheduler

end WorkflowModel.Kernel.CommScheduler
