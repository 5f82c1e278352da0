import WorkflowModel.Proof.UpstreamRuns
import Mathlib.Algebra.BigOperators.Group.Finset.Defs

/-!
# The available weight

`available_weight_` should be the weight of the live ungrouped masters and of the groups with a live
member. `surplus` is by how much it is too large. A change of state keeps it. Adding a master of a group
takes the weight of the master from it, since the group gains its weight only after the server has been
gained, and removing a master from a group that stays alive gives the weight back.
-/

namespace WorkflowModel.Manager.Upstream

open WorkflowModel Finset

def availableSum (s : Upstream) : Int :=
  ((s.masters.filter fun i => (s.addresses i).params.groupId < 0 ∧ (s.addresses i).alive).map
      fun i => ((s.addresses i).params.weight : Int)).sum
    + ((s.groupIds.filter fun id => 0 ≤ id ∧ 0 < (s.group id).nalive).map
      fun id => (s.group id).weight).sum

def Accounted (s : Upstream) : Prop :=
  s.availableWeight = availableSum s ∧ 0 ≤ s.availableWeight

def surplus (s : Upstream) : Int :=
  s.availableWeight - (sumOver s ungroupedWeight
    + ∑ id ∈ s.groupIds.toFinset, groupWeight id (s.group id))

theorem sum_filter_map {α : Type*} [DecidableEq α] {l : List α} (hl : l.Nodup) (p : α → Prop)
    [DecidablePred p] (f : α → Int) :
    ((l.filter fun a => p a).map f).sum = ∑ a ∈ l.toFinset, if p a then f a else 0 := by
  rw [← List.sum_toFinset f (hl.filter _), List.toFinset_filter, Finset.sum_filter]
  simp only [decide_eq_true_eq]

theorem Inv.availableSum_eq {s : Upstream} (h : Inv s) :
    availableSum s = sumOver s ungroupedWeight
      + ∑ id ∈ s.groupIds.toFinset, groupWeight id (s.group id) := by
  unfold availableSum
  rw [sum_filter_map h.nodup_allMasters
      (fun i => (s.addresses i).params.groupId < 0 ∧ (s.addresses i).alive = true),
    sum_filter_map h.nodup_groupIds (fun id => 0 ≤ id ∧ 0 < (s.group id).nalive)]
  congr 1
  rw [← h.sum_masters]
  · apply Finset.sum_congr rfl
    intro i hi
    rw [List.mem_toFinset, h.mem_allMasters] at hi
    simp [ungroupedWeight, hi]
  · intro ua hua
    unfold ungroupedWeight
    rw [if_neg]
    tauto

theorem Core.weight_nonneg {s : Upstream} (h : Core s) (id : Int) : 0 ≤ (s.group id).weight := by
  rw [h.weight]
  apply Finset.sum_nonneg
  intro i _
  unfold weightIn
  split_ifs
  · exact Int.natCast_nonneg _
  · exact le_rfl

theorem ungroupedWeight_nonneg (ua : UpstreamAddress) : 0 ≤ ungroupedWeight ua := by
  unfold ungroupedWeight
  split_ifs
  · exact Int.natCast_nonneg _
  · exact le_rfl

theorem Core.groupWeight_nonneg {s : Upstream} (h : Core s) (id : Int) :
    0 ≤ groupWeight id (s.group id) := by
  unfold groupWeight
  split_ifs
  · exact h.weight_nonneg id
  · exact le_rfl

theorem Inv.accounted_iff {s : Upstream} (h : Inv s) : Accounted s ↔ surplus s = 0 := by
  have hnonneg : 0 ≤ availableSum s := by
    rw [h.availableSum_eq]
    apply add_nonneg
    · exact Finset.sum_nonneg fun i _ => ungroupedWeight_nonneg (s.addresses i)
    · exact Finset.sum_nonneg fun id _ => h.groupWeight_nonneg id
  unfold Accounted surplus
  rw [← h.availableSum_eq]
  omega

theorem surplus_restate {s : Upstream} {i : Nat} {ua : UpstreamAddress} {id : Int}
    {group : UpstreamGroup} {available total : Int} (hi : i < s.count) (hid : id ∈ s.groupIds) :
    surplus (s.restate i ua id group available total)
      = surplus s + (available - s.availableWeight)
        - (ungroupedWeight ua - ungroupedWeight (s.addresses i))
        - (groupWeight id group - groupWeight id (s.group id)) := by
  unfold surplus
  rw [sumOver_restate hi]
  have hgroups := sum_update_eq s.groupIds.toFinset groupWeight s.group
    (List.mem_toFinset.2 hid) group
  change available - (_ + ∑ k ∈ s.groupIds.toFinset,
    groupWeight k (Function.update s.group id group k)) = _
  rw [hgroups]
  ring

theorem Changes.surplus_eq {s t : Upstream} (h : Changes s t) (hs : Core s) :
    surplus t = surplus s := by
  induction h with
  | refl => rfl
  | change hbefore hchange ih =>
      have hmem := (hbefore.core hs).home _ hchange.lt
      rw [hchange.home] at hmem
      rw [surplus_restate hchange.lt hmem, ih, hchange.available]
      ring

theorem surplus_enrolled {s : Upstream} (h : Core s) {ua : UpstreamAddress} (hnone : ua.group = none) :
    surplus (enrolled s ua) = surplus s := by
  have hgroups : ∑ id ∈ (enrolled s ua).groupIds.toFinset, groupWeight id (s.group id)
      = ∑ id ∈ s.groupIds.toFinset, groupWeight id (s.group id) := by
    symm
    apply Finset.sum_subset
    · intro id hid
      rw [List.mem_toFinset] at hid ⊢
      exact (mem_enrolled_groupIds id).2 (.inr hid)
    · intro id _ hid
      rw [h.absent id (fun hmem => hid (List.mem_toFinset.2 hmem))]
      simp [groupWeight, emptyGroup]
  unfold surplus
  rw [h.placed.enrolled_group, hgroups, enrolled_availableWeight,
    sumOver_enrolled (by simp [ungroupedWeight, hnone])]

/-- The weight that `add` forgets. -/
def forgottenWeight (ua : UpstreamAddress) : Int := if 0 ≤ ua.params.groupId then ownWeight ua else 0

theorem surplus_add {s : Upstream} (h : Core s) (address : Bytes) (params : AddressParams)
    (hashes : List Nat) :
    surplus (s.add address params hashes)
      = surplus s - forgottenWeight (newAddress address params hashes) := by
  have halive := newAddress_alive address params hashes
  have hnone : (newAddress address params hashes).group = none := rfl
  rw [add_eq]
  generalize newAddress address params hashes = ua at *
  have hua : (enrolled s ua).addresses s.count = ua := by
    rw [enrolled_addresses, Function.update_self]
  rw [surplus_restate (by simp) ((mem_enrolled_groupIds _).2 (.inl rfl)), surplus_enrolled h hnone, hua,
    h.placed.enrolled_group]
  have hnonneg := h.nalive_nonneg ua.params.groupId
  generalize s.group ua.params.groupId = group at *
  have halive' : ({ ua with group := some ua.params.groupId } : UpstreamAddress).alive = true := halive
  simp only [ungroupedWeight, hnone, halive', groupWeight, joinedGroup, gainOf, forgottenWeight,
    ownWeight]
  split_ifs <;> simp_all <;> omega

/-- The weight that comes back when `ua` leaves a group that stays alive. -/
def returnedWeight (group : UpstreamGroup) (ua : UpstreamAddress) : Int :=
  if 0 < group.nalive - (if ua.alive then 1 else 0) then forgottenWeight ua else 0

theorem surplus_leaveGroup {s : Upstream} (h : Core s) {i : Nat} {id : Int}
    (hgroup : (s.addresses i).group = some id) :
    surplus (leaveGroup i s) = surplus s + returnedWeight (s.group id) (s.addresses i) := by
  have hi : i < s.count := h.lt_count (by simp [hgroup])
  have hid : (s.addresses i).params.groupId = id := h.attached i id hgroup
  have hmem : id ∈ s.groupIds := hid ▸ h.home i hi
  have hnonneg := h.nalive_nonneg id
  have hpos := fun halive => h.nalive_pos hgroup halive
  rw [leaveGroup_eq hgroup, surplus_restate hi hmem]
  unfold leftWeight
  generalize s.group id = group at *
  generalize s.addresses i = ua at *
  simp only [ungroupedWeight, hgroup, hid, groupWeight, leftGroup, lossOf, returnedWeight,
    forgottenWeight, ownWeight]
  by_cases hgrouped : 0 ≤ id
  · have hneg : ¬ id < 0 := not_lt.2 hgrouped
    simp only [hgrouped, hneg, true_and, and_true, false_and, and_false, if_true, if_false, Nat.cast_zero,
      add_zero, sub_zero]
    by_cases halive : ua.alive = true
    · have hcount := hpos halive
      simp only [halive, if_true]
      split_ifs <;> omega
    · simp only [halive, if_false, Bool.false_eq_true]
      split_ifs <;> omega
  · have hneg : id < 0 := not_le.1 hgrouped
    simp only [hgrouped, hneg, true_and, false_and, and_false, if_false, zero_add, sub_zero,
      ne_eq, not_true_eq_false, reduceCtorEq, not_false_eq_true, zero_sub]
    split_ifs <;> simp_all

/-- No attached server has a weight that `add` forgot. -/
def NoneForgotten (s : Upstream) : Prop :=
  ∀ i, (s.addresses i).group ≠ none → forgottenWeight (s.addresses i) = 0

/-- `op` adds a master of a group. -/
def Op.AddsGroupedMaster : Op → Prop
  | .add _ params _ => params.serverType = .master ∧ 0 ≤ params.groupId
  | _ => False

theorem forgottenWeight_newAddress_eq_zero (address : Bytes) (params : AddressParams)
    (hashes : List Nat) :
    forgottenWeight (newAddress address params hashes) = 0
      ↔ ¬ (Op.add address params hashes).AddsGroupedMaster := by
  have hweight := (newAddress_normal address params hashes).2.1
  have hgroup : 0 ≤ (newAddress address params hashes).params.groupId ↔ 0 ≤ params.groupId := by
    simp only [newAddress]
    split_ifs <;> omega
  have htype : (newAddress address params hashes).params.serverType = params.serverType := rfl
  simp only [forgottenWeight, ownWeight, hgroup, htype, Op.AddsGroupedMaster]
  split_ifs with hgrouped hmaster
  · simp only [hmaster, hgrouped, and_self, not_true_eq_false, iff_false]
    omega
  · simp [hmaster]
  · simp [hgrouped]

theorem NoneForgotten.leaveGroup {s : Upstream} (hs : NoneForgotten s) (i : Nat) :
    NoneForgotten (leaveGroup i s) := by
  intro j hj
  rw [leaveGroup_addresses] at hj ⊢
  split_ifs at hj ⊢ with hji
  · exact absurd rfl hj
  · exact hs j hj

theorem NoneForgotten.surplus_leaveGroup {s : Upstream} (hs : NoneForgotten s) (h : Core s) (i : Nat) :
    surplus (Upstream.leaveGroup i s) = surplus s := by
  cases hgroup : (s.addresses i).group with
  | none => rw [leaveGroup_of_detached hgroup]
  | some id =>
      rw [Upstream.surplus_leaveGroup h hgroup, returnedWeight, hs i (by simp [hgroup])]
      simp

theorem NoneForgotten.leaveAll {s : Upstream} (hs : NoneForgotten s) (h : Core s) (l : List Nat) :
    NoneForgotten (leaveAll l s) ∧ surplus (leaveAll l s) = surplus s := by
  induction l generalizing s with
  | nil => exact ⟨hs, rfl⟩
  | cons i rest ih =>
      obtain ⟨hnone, hsurplus⟩ := ih (hs.leaveGroup i) (h.leaveGroup i)
      exact ⟨hnone, hsurplus.trans (hs.surplus_leaveGroup h i)⟩

theorem NoneForgotten.changes {s t : Upstream} (hs : NoneForgotten s) (h : Changes s t) :
    NoneForgotten t := by
  intro i hi
  obtain ⟨hparams, -, hgroup⟩ := h.address_eq i
  rw [hgroup] at hi
  have hzero := hs i hi
  unfold forgottenWeight ownWeight at hzero ⊢
  rwa [hparams]

theorem NoneForgotten.step {s : Upstream} (hs : NoneForgotten s) (h : Inv s) {op : Op}
    (hwrap : NoWrap s op) (hop : ¬ op.AddsGroupedMaster) :
    NoneForgotten (step s op) ∧ surplus (step s op) = surplus s := by
  obtain ⟨address, params, hashes, rfl⟩ | ⟨address, rfl⟩ | hchanges := step_cases h hwrap
  · have hzero := (forgottenWeight_newAddress_eq_zero address params hashes).2 hop
    constructor
    · intro i hi
      simp only [Upstream.step] at hi ⊢
      rw [add_addresses] at hi ⊢
      split_ifs at hi ⊢ with hnew
      · exact hzero
      · exact hs i hi
    · simp only [Upstream.step]
      rw [surplus_add h.toCore, hzero, sub_zero]
  · exact hs.leaveAll h.toCore (s.serverMap address)
  · exact ⟨hs.changes hchanges, hchanges.surplus_eq h.toCore⟩

theorem NoneForgotten.run {s : Upstream} (hs : NoneForgotten s) (h : Inv s) {ops : List Op}
    (hwraps : NoWraps s ops) (hops : ∀ op ∈ ops, ¬ op.AddsGroupedMaster) :
    NoneForgotten (run s ops) ∧ surplus (run s ops) = surplus s := by
  induction ops generalizing s with
  | nil => exact ⟨hs, rfl⟩
  | cons op rest ih =>
      obtain ⟨hnext, hsurplus⟩ := hs.step h hwraps.1 (hops op (List.mem_cons_self ..))
      obtain ⟨hlast, hrest⟩ := ih hnext (h.step hwraps.1) hwraps.2
        (fun op' hop' => hops op' (List.mem_cons_of_mem op hop'))
      exact ⟨hlast, hrest.trans hsurplus⟩

theorem surplus_step_ne {s : Upstream} (h : Inv s) (hzero : surplus s = 0) {op : Op}
    (hop : op.AddsGroupedMaster) : surplus (step s op) ≠ 0 := by
  cases op with
  | add address params hashes =>
      have hforgotten : forgottenWeight (newAddress address params hashes) ≠ 0 := by
        rw [Ne, forgottenWeight_newAddress_eq_zero, not_not]
        exact hop
      simp only [step]
      rw [surplus_add h.toCore, hzero]
      omega
  | _ => exact hop.elim

theorem accounted_run_iff {s : Upstream} (h : Inv s) (hs : NoneForgotten s) (hzero : surplus s = 0)
    {ops : List Op} (hwraps : NoWraps s ops) :
    (∀ k, Accounted (run s (ops.take k))) ↔ ∀ op ∈ ops, ¬ op.AddsGroupedMaster := by
  induction ops generalizing s with
  | nil =>
      simp only [List.take_nil, List.not_mem_nil, false_implies, implies_true, iff_true]
      exact fun _ => h.accounted_iff.2 hzero
  | cons op rest ih =>
      have hinv := h.step hwraps.1
      by_cases hop : op.AddsGroupedMaster
      · refine iff_of_false ?_ ?_
        · intro hall
          exact surplus_step_ne h hzero hop (hinv.accounted_iff.1 (hall 1))
        · intro hnone
          exact hnone op (List.mem_cons_self ..) hop
      · obtain ⟨hnext, hsurplus⟩ := hs.step h hwraps.1 hop
        have hrest := ih hinv hnext (hsurplus.trans hzero) hwraps.2
        constructor
        · intro hall op' hop'
          obtain rfl | hmem := List.mem_cons.1 hop'
          · exact hop
          · exact hrest.1 (fun k => hall (k + 1)) op' hmem
        · intro hnone k
          cases k with
          | zero => exact h.accounted_iff.2 hzero
          | succ k => exact hrest.2 (fun op' hop' => hnone op' (List.mem_cons_of_mem op hop')) k

theorem noneForgotten_emptyUpstream : NoneForgotten emptyUpstream :=
  fun _ hi => absurd rfl hi

theorem surplus_emptyUpstream : surplus emptyUpstream = 0 := by
  simp [surplus, emptyUpstream, sumOver, groupWeight]

/-- The weights are accounted for along a whole run exactly when the run adds no master of a group. -/
theorem accounted_iff_no_groupedMaster {ops : List Op} (hwraps : NoWraps emptyUpstream ops) :
    (∀ k, Accounted (run emptyUpstream (ops.take k))) ↔ ∀ op ∈ ops, ¬ op.AddsGroupedMaster :=
  accounted_run_iff inv_emptyUpstream noneForgotten_emptyUpstream surplus_emptyUpstream hwraps

def oneGroupedMaster : List Op := [.add [] ⟨1, 1, .master, 1⟩ []]

theorem not_accounted_oneGroupedMaster : ¬ Accounted (run emptyUpstream oneGroupedMaster) := by
  unfold Accounted
  decide

/-- An ungrouped master that breaks and a slave of a group that is removed. -/
def ungroupedRun : List Op :=
  [.add [1] ⟨1, 2, .master, -1⟩ [], .add [2] ⟨1, 1, .slave, 3⟩ [], .notifyUnavailable 0 0, .del [2],
    .checkAllBreaker 30]

theorem accounted_ungroupedRun :
    NoWraps emptyUpstream ungroupedRun
      ∧ ∀ k, Accounted (run emptyUpstream (ungroupedRun.take k)) := by
  have hwraps : NoWraps emptyUpstream ungroupedRun := by
    simp only [ungroupedRun, NoWraps, NoWrap]
    decide
  refine ⟨hwraps, (accounted_iff_no_groupedMaster hwraps).2 ?_⟩
  simp [ungroupedRun, Op.AddsGroupedMaster]

end WorkflowModel.Manager.Upstream
