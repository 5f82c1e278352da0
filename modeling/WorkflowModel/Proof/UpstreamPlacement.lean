import WorkflowModel.Manager.Upstream
import Mathlib.Algebra.BigOperators.Group.Finset.Basic
import Mathlib.Algebra.BigOperators.Ring.Finset
import Mathlib.Algebra.Order.BigOperators.Group.Finset
import Mathlib.Data.Int.Interval
import Mathlib.Data.List.Nodup
import Mathlib.Tactic.Ring
import Mathlib.Tactic.Linarith

/-!
# Where the servers of an upstream are

Every operation on a server that exists replaces the server, its group and the two weights of the
upstream, and nothing else. `restate` is this shape. The lists of the groups hold the servers they should,
and so do the list of all masters and the map of servers; the weights are sums over the servers. None of
this reads a failure counter, so it holds through any operations, also when a counter wraps around.
-/

namespace WorkflowModel.Manager.Upstream

open WorkflowModel Finset

theorem sum_update_eq {ι α : Type*} [DecidableEq ι] (places : Finset ι) (f : ι → α → Int) (a : ι → α)
    {i : ι} (hi : i ∈ places) (x : α) :
    ∑ j ∈ places, f j (Function.update a i x j)
      = ∑ j ∈ places, f j (a j) + (f i x - f i (a i)) := by
  rw [← Finset.add_sum_erase places _ hi, ← Finset.add_sum_erase places (fun j => f j (a j)) hi]
  have hrest : ∑ j ∈ places.erase i, f j (Function.update a i x j)
      = ∑ j ∈ places.erase i, f j (a j) := by
    apply Finset.sum_congr rfl
    intro j hj
    rw [Function.update_of_ne (Finset.ne_of_mem_erase hj)]
  rw [hrest, Function.update_self]
  ring

def sumOver (s : Upstream) (f : UpstreamAddress → Int) : Int :=
  ∑ i ∈ range s.count, f (s.addresses i)

def weightIn (id : Int) (ua : UpstreamAddress) : Int :=
  if ua.group = some id ∧ ua.params.serverType = .master then ua.params.weight else 0

def masterWeight (ua : UpstreamAddress) : Int :=
  if ua.group ≠ none ∧ ua.params.serverType = .master then ua.params.weight else 0

/-- The upstream after the server `i` and the group `id` have been replaced. -/
def restate (s : Upstream) (i : Nat) (ua : UpstreamAddress) (id : Int) (group : UpstreamGroup)
    (available total : Int) : Upstream :=
  { s with
    addresses := Function.update s.addresses i ua
    group := Function.update s.group id group
    availableWeight := available
    totalWeight := total }

section Restate

variable {i : Nat} {ua : UpstreamAddress} {id : Int} {group : UpstreamGroup} {available total : Int}
  {s : Upstream}

@[simp]
theorem restate_count : (s.restate i ua id group available total).count = s.count := rfl

@[simp]
theorem restate_groupIds : (s.restate i ua id group available total).groupIds = s.groupIds := rfl

@[simp]
theorem restate_masters : (s.restate i ua id group available total).masters = s.masters := rfl

@[simp]
theorem restate_serverMap : (s.restate i ua id group available total).serverMap = s.serverMap := rfl

@[simp]
theorem restate_addresses_self :
    (s.restate i ua id group available total).addresses i = ua := Function.update_self ..

theorem restate_addresses_of_ne {j : Nat} (hj : j ≠ i) :
    (s.restate i ua id group available total).addresses j = s.addresses j :=
  Function.update_of_ne hj ..

@[simp]
theorem restate_group_self :
    (s.restate i ua id group available total).group id = group := Function.update_self ..

theorem restate_group_of_ne {k : Int} (hk : k ≠ id) :
    (s.restate i ua id group available total).group k = s.group k :=
  Function.update_of_ne hk ..

theorem forall_restate_addresses (P : Nat → UpstreamAddress → Prop) (hua : P i ua)
    (hothers : ∀ j, P j (s.addresses j)) (j : Nat) :
    P j ((s.restate i ua id group available total).addresses j) := by
  by_cases hj : j = i
  · rw [hj, restate_addresses_self]
    exact hua
  · rw [restate_addresses_of_ne hj]
    exact hothers j

theorem forall_restate_group (P : UpstreamGroup → Prop) (hgroup : P group)
    (hothers : ∀ k, P (s.group k)) (k : Int) :
    P ((s.restate i ua id group available total).group k) := by
  by_cases hk : k = id
  · rw [hk, restate_group_self]
    exact hgroup
  · rw [restate_group_of_ne hk]
    exact hothers k

theorem sumOver_restate (hi : i < s.count) (f : UpstreamAddress → Int) :
    sumOver (s.restate i ua id group available total) f
      = sumOver s f + (f ua - f (s.addresses i)) :=
  sum_update_eq (range s.count) (fun _ => f) s.addresses (mem_range.2 hi) ua

theorem setAddress_eq_restate (i : Nat) (ua : UpstreamAddress) (id : Int) (s : Upstream) :
    s.setAddress i ua = s.restate i ua id (s.group id) s.availableWeight s.totalWeight := by
  unfold setAddress restate
  rw [Function.update_eq_self]

end Restate

/-- What `lose_one_server` takes from the available weight. -/
def lossOf (group : UpstreamGroup) (ua : UpstreamAddress) : Int :=
  (if group.nalive - 1 = 0 ∧ 0 ≤ ua.params.groupId then group.weight else 0)
    + (if ua.params.groupId < 0 ∧ ua.params.serverType = .master then ua.params.weight else 0)

/-- What `gain_one_server` adds to the available weight. -/
def gainOf (group : UpstreamGroup) (ua : UpstreamAddress) : Int :=
  (if group.nalive = 0 ∧ 0 ≤ ua.params.groupId then group.weight else 0)
    + (if ua.params.groupId < 0 ∧ ua.params.serverType = .master then ua.params.weight else 0)

theorem loseOneServer_eq (id : Int) (i : Nat) (s : Upstream) :
    loseOneServer id i s = { s with
      group := Function.update s.group id { s.group id with nalive := (s.group id).nalive - 1 }
      availableWeight := s.availableWeight - lossOf (s.group id) (s.addresses i) } := by
  simp only [loseOneServer, lossOf, setGroup]
  split_ifs <;> simp [sub_sub]

theorem gainOneServer_eq (id : Int) (i : Nat) (s : Upstream) :
    gainOneServer id i s = { s with
      group := Function.update s.group id { s.group id with nalive := (s.group id).nalive + 1 }
      availableWeight := s.availableWeight + gainOf (s.group id) (s.addresses i) } := by
  simp only [gainOneServer, gainOf, setGroup]
  split_ifs <;> simp [add_assoc]

theorem breakServer_setAddress (id : Int) (i : Nat) (now : Int) (ua : UpstreamAddress)
    (s : Upstream) :
    breakServer id i now (s.setAddress i ua) = s.restate i
      { ua with inList := true, brokenTimeout := now + mttrSecond } id
      { s.group id with
        breakerList := (s.group id).breakerList ++ [i]
        nbreak := (s.group id).nbreak + 1
        nalive := (s.group id).nalive - 1 }
      (s.availableWeight - lossOf (s.group id) ua) s.totalWeight := by
  simp only [breakServer, loseOneServer_eq, setAddress, setGroup, restate, Function.update_self,
    Function.update_idem]
  rfl

section MemRestate

variable {s : Upstream} {i : Nat} {ua : UpstreamAddress} {id : Int} {group : UpstreamGroup}
  {available total : Int}

theorem mem_restate {L : UpstreamGroup → List Nat} {P : Int → UpstreamAddress → Prop}
    (hold : ∀ k j, j ∈ L (s.group k) ↔ P k (s.addresses j)) (hown : ∀ k, P k (s.addresses i) → k = id)
    (hnew : ∀ k, P k ua → k = id)
    (hlist : ∀ j, j ∈ L group ↔ if j = i then P id ua else j ∈ L (s.group id)) (k : Int) (j : Nat) :
    j ∈ L ((s.restate i ua id group available total).group k)
      ↔ P k ((s.restate i ua id group available total).addresses j) := by
  by_cases hk : k = id <;> by_cases hj : j = i
  · rw [hk, hj, restate_group_self, restate_addresses_self, hlist, if_pos rfl]
  · rw [hk, restate_group_self, restate_addresses_of_ne hj, hlist, if_neg hj, hold]
  · rw [hj, restate_group_of_ne hk, restate_addresses_self, hold]
    exact ⟨fun hP => absurd (hown k hP) hk, fun hP => absurd (hnew k hP) hk⟩
  · rw [restate_group_of_ne hk, restate_addresses_of_ne hj, hold]

theorem sum_restate {n : UpstreamGroup → Int} {f : Int → UpstreamAddress → Int}
    (hold : ∀ k, n (s.group k) = sumOver s (f k)) (hi : i < s.count)
    (hown : ∀ k, k ≠ id → f k (s.addresses i) = 0) (hnew : ∀ k, k ≠ id → f k ua = 0)
    (hsum : n group = n (s.group id) + (f id ua - f id (s.addresses i))) (k : Int) :
    n ((s.restate i ua id group available total).group k)
      = sumOver (s.restate i ua id group available total) (f k) := by
  rw [sumOver_restate hi]
  by_cases hk : k = id
  · rw [hk, restate_group_self, hsum, hold]
  · rw [restate_group_of_ne hk, hown k hk, hnew k hk, hold]
    ring

end MemRestate

/-- What holds of the lists and the weights, also between two rounds of a loop. -/
structure Placed (s : Upstream) : Prop where
  fresh : ∀ i, s.count ≤ i → (s.addresses i).group = none ∧ (s.addresses i).inList = false
  normal : ∀ i, 1 ≤ (s.addresses i).params.maxFails ∧ 1 ≤ (s.addresses i).params.weight
    ∧ -1 ≤ (s.addresses i).params.groupId
  home : ∀ i, i < s.count → (s.addresses i).params.groupId ∈ s.groupIds
  attached : ∀ i id, (s.addresses i).group = some id → (s.addresses i).params.groupId = id
  mem_masters : ∀ id i, i ∈ (s.group id).masters
    ↔ (s.addresses i).group = some id ∧ (s.addresses i).params.serverType = .master
  mem_slaves : ∀ id i, i ∈ (s.group id).slaves
    ↔ (s.addresses i).group = some id ∧ (s.addresses i).params.serverType = .slave
  nodup_masters : ∀ id, (s.group id).masters.Nodup
  nodup_slaves : ∀ id, (s.group id).slaves.Nodup
  mem_breakerList : ∀ id i, i ∈ (s.group id).breakerList
    ↔ (s.addresses i).inList = true ∧ (s.addresses i).params.groupId = id
  weight : ∀ id, (s.group id).weight = sumOver s (weightIn id)
  total : s.totalWeight = sumOver s masterWeight
  absent : ∀ id, id ∉ s.groupIds → s.group id = emptyGroup
  nodup_groupIds : s.groupIds.Nodup
  default : -1 ∈ s.groupIds

namespace Placed

variable {s : Upstream} {i : Nat} {ua : UpstreamAddress} {id : Int} {group : UpstreamGroup}
  {available total : Int}

theorem lt_count (h : Placed s) (hi : (s.addresses i).group ≠ none) : i < s.count := by
  by_contra hge
  exact hi (h.fresh i (not_lt.1 hge)).1

/-- The invariant after one server and its group are replaced, from facts about these two. -/
theorem restate (h : Placed s) (hi : i < s.count) (hparams : ua.params = (s.addresses i).params)
    (hid : (s.addresses i).params.groupId = id) (hattached : ∀ k, ua.group = some k → k = id)
    (hmasters : ∀ j, j ∈ group.masters ↔
      if j = i then ua.group = some id ∧ ua.params.serverType = .master
      else j ∈ (s.group id).masters)
    (hslaves : ∀ j, j ∈ group.slaves ↔
      if j = i then ua.group = some id ∧ ua.params.serverType = .slave
      else j ∈ (s.group id).slaves)
    (hnodupM : group.masters.Nodup) (hnodupS : group.slaves.Nodup)
    (hlist : ∀ j, j ∈ group.breakerList ↔
      if j = i then ua.inList = true else j ∈ (s.group id).breakerList)
    (hweight : group.weight = (s.group id).weight + (weightIn id ua - weightIn id (s.addresses i)))
    (htotal : total = s.totalWeight + (masterWeight ua - masterWeight (s.addresses i))) :
    Placed (s.restate i ua id group available total) := by
  have hown : ∀ k, (s.addresses i).group = some k → k = id := by
    intro k hk
    rw [← h.attached i k hk, hid]
  constructor
  · intro j hj
    have hne : j ≠ i := by
      simp only [restate_count] at hj
      omega
    rw [restate_addresses_of_ne hne]
    exact h.fresh j hj
  · exact forall_restate_addresses
      (fun _ a => 1 ≤ a.params.maxFails ∧ 1 ≤ a.params.weight ∧ -1 ≤ a.params.groupId)
      (hparams ▸ h.normal i) h.normal
  · exact forall_restate_addresses (fun j a => j < s.count → a.params.groupId ∈ s.groupIds)
      (hparams ▸ h.home i) h.home
  · apply forall_restate_addresses (fun _ a => ∀ k, a.group = some k → a.params.groupId = k) _
      h.attached
    intro k hk
    rw [hparams, hid, hattached k hk]
  · exact mem_restate (P := fun k a => a.group = some k ∧ a.params.serverType = .master)
      h.mem_masters (fun k hP => hown k hP.1) (fun k hP => hattached k hP.1) hmasters
  · exact mem_restate (P := fun k a => a.group = some k ∧ a.params.serverType = .slave)
      h.mem_slaves (fun k hP => hown k hP.1) (fun k hP => hattached k hP.1) hslaves
  · exact forall_restate_group (fun g => g.masters.Nodup) hnodupM h.nodup_masters
  · exact forall_restate_group (fun g => g.slaves.Nodup) hnodupS h.nodup_slaves
  · apply mem_restate (P := fun k a => a.inList = true ∧ a.params.groupId = k) h.mem_breakerList
    · exact fun k hP => hP.2.symm.trans hid
    · intro k hP
      rw [← hP.2, hparams, hid]
    · simpa only [hparams, hid, and_true] using hlist
  · apply sum_restate h.weight hi
    · exact fun k hk => if_neg fun hP => hk (hown k hP.1)
    · exact fun k hk => if_neg fun hP => hk (hattached k hP.1)
    · exact hweight
  · rw [sumOver_restate hi, ← h.total]
    exact htotal
  · intro k hk
    have hne : k ≠ id := by
      rintro rfl
      have hmem := h.home i hi
      rw [hid] at hmem
      exact hk hmem
    rw [restate_group_of_ne hne]
    exact h.absent k hk
  · exact h.nodup_groupIds
  · exact h.default

/-- The same where the server stays where it is attached. -/
theorem restate_state (h : Placed s) (hi : i < s.count) (hparams : ua.params = (s.addresses i).params)
    (hid : (s.addresses i).params.groupId = id) (hsame : ua.group = (s.addresses i).group)
    (hmasters : group.masters = (s.group id).masters) (hslaves : group.slaves = (s.group id).slaves)
    (hlist : ∀ j, j ∈ group.breakerList ↔
      if j = i then ua.inList = true else j ∈ (s.group id).breakerList)
    (hweight : group.weight = (s.group id).weight) :
    Placed (s.restate i ua id group available s.totalWeight) := by
  apply h.restate hi hparams hid
  · intro k hk
    rw [← h.attached i k (hsame ▸ hk), hid]
  · intro j
    split_ifs with hj
    · rw [hmasters, h.mem_masters, hj, hparams, hsame]
    · rw [hmasters]
  · intro j
    split_ifs with hj
    · rw [hslaves, h.mem_slaves, hj, hparams, hsame]
    · rw [hslaves]
  · exact hmasters ▸ h.nodup_masters id
  · exact hslaves ▸ h.nodup_slaves id
  · exact hlist
  · simp [hweight, weightIn, hsame, hparams]
  · simp [masterWeight, hsame, hparams]

end Placed

/-- The upstream of `add` before the group gains the server: the server is known, and its group exists. -/
def enrolled (s : Upstream) (ua : UpstreamAddress) : Upstream :=
  { ensureGroup ua.params.groupId { s with
      count := s.count + 1
      addresses := Function.update s.addresses s.count ua
      serverMap := Function.update s.serverMap ua.address (s.serverMap ua.address ++ [s.count]) } with
    masters := if ua.params.serverType = .master then s.masters ++ [s.count] else s.masters }

def ownWeight (ua : UpstreamAddress) : Int :=
  if ua.params.serverType = .master then ua.params.weight else 0

/-- The group that gains a server. -/
def joinedGroup (group : UpstreamGroup) (i : Nat) (ua : UpstreamAddress) : UpstreamGroup :=
  { group with
    nalive := group.nalive + 1
    weight := group.weight + ownWeight ua
    masters := if ua.params.serverType = .master then group.masters ++ [i] else group.masters
    slaves := if ua.params.serverType = .master then group.slaves else group.slaves ++ [i] }

theorem enrolled_eq (s : Upstream) (ua : UpstreamAddress) :
    enrolled s ua = { s with
      count := s.count + 1
      addresses := Function.update s.addresses s.count ua
      serverMap := Function.update s.serverMap ua.address (s.serverMap ua.address ++ [s.count])
      masters := if ua.params.serverType = .master then s.masters ++ [s.count] else s.masters
      groupIds := (ensureGroup ua.params.groupId s).groupIds
      group := (ensureGroup ua.params.groupId s).group } := by
  unfold enrolled ensureGroup
  split_ifs <;> rfl

theorem joinGroup_eq (id : Int) (i : Nat) (s : Upstream) :
    joinGroup id i s = s.restate i { s.addresses i with group := some id } id
      (joinedGroup (s.group id) i (s.addresses i))
      (s.availableWeight + gainOf (s.group id) (s.addresses i)) s.totalWeight := by
  simp only [joinGroup, gainOneServer_eq, setAddress, setGroup, restate, joinedGroup, ownWeight]
  split_ifs <;> simp only [Function.update_self, Function.update_idem, add_zero]

theorem add_eq (address : Bytes) (params : AddressParams) (hashes : List Nat) (s : Upstream) :
    let ua := newAddress address params hashes
    let t := enrolled s ua
    s.add address params hashes = t.restate s.count { ua with group := some ua.params.groupId }
      ua.params.groupId (joinedGroup (t.group ua.params.groupId) s.count ua)
      (t.availableWeight + gainOf (t.group ua.params.groupId) ua) (t.totalWeight + ownWeight ua) := by
  intro ua t
  have hua : t.addresses s.count = ua := by
    simp only [t, enrolled_eq, Function.update_self]
  have hbefore : s.add address params hashes
      = joinGroup ua.params.groupId s.count { t with totalWeight := t.totalWeight + ownWeight ua } := by
    by_cases hmaster : ua.params.serverType = .master
    · simp only [t, enrolled, ownWeight, if_pos hmaster, add]
      rw [if_pos hmaster]
      unfold ensureGroup
      split_ifs <;> rfl
    · simp only [t, enrolled, ownWeight, if_neg hmaster, add]
      rw [if_neg hmaster]
      unfold ensureGroup
      split_ifs <;> simp <;> rfl
  rw [hbefore, joinGroup_eq]
  simp only [hua]
  rfl

section Enrolled

variable {s : Upstream} {ua : UpstreamAddress}

theorem mem_ensureGroup (id k : Int) (s : Upstream) :
    k ∈ (ensureGroup id s).groupIds ↔ k = id ∨ k ∈ s.groupIds := by
  unfold ensureGroup
  split_ifs with hid
  · constructor
    · exact Or.inr
    · rintro (rfl | hk)
      · exact hid
      · exact hk
  · simp only [List.mem_append, List.mem_filter, List.mem_cons, decide_eq_true_eq]
    constructor
    · rintro (hk | hk | hk)
      · exact .inr hk.1
      · exact .inl hk
      · exact .inr hk.1
    · rintro (hk | hk)
      · exact .inr (.inl hk)
      · obtain hlt | heq | hgt := lt_trichotomy k id
        · exact .inl ⟨hk, hlt⟩
        · exact .inr (.inl heq)
        · exact .inr (.inr ⟨hk, hgt⟩)

theorem nodup_ensureGroup {id : Int} (h : s.groupIds.Nodup) :
    (ensureGroup id s).groupIds.Nodup := by
  unfold ensureGroup
  split_ifs with hid
  · exact h
  · refine List.Nodup.append (h.filter _) (List.nodup_cons.2 ⟨?_, h.filter _⟩) ?_
    · intro hmem
      exact hid (List.mem_filter.1 hmem).1
    · intro k hlow hhigh
      have hlt := (List.mem_filter.1 hlow).2
      obtain heq | hmem := List.mem_cons.1 hhigh
      · simp [heq] at hlt
      · have hgt := (List.mem_filter.1 hmem).2
        simp only [decide_eq_true_eq] at hlt hgt
        omega

theorem Placed.ensureGroup_group (h : Placed s) (id : Int) : (ensureGroup id s).group = s.group := by
  unfold ensureGroup
  split_ifs with hid
  · rfl
  · rw [← h.absent id hid, Function.update_eq_self]

@[simp]
theorem enrolled_count : (enrolled s ua).count = s.count + 1 := by rw [enrolled_eq]

@[simp]
theorem enrolled_addresses :
    (enrolled s ua).addresses = Function.update s.addresses s.count ua := by rw [enrolled_eq]

@[simp]
theorem enrolled_availableWeight : (enrolled s ua).availableWeight = s.availableWeight := by
  rw [enrolled_eq]

@[simp]
theorem enrolled_totalWeight : (enrolled s ua).totalWeight = s.totalWeight := by rw [enrolled_eq]

theorem Placed.enrolled_group (h : Placed s) : (enrolled s ua).group = s.group := by
  rw [enrolled_eq]
  exact h.ensureGroup_group ua.params.groupId

theorem mem_enrolled_groupIds (k : Int) :
    k ∈ (enrolled s ua).groupIds ↔ k = ua.params.groupId ∨ k ∈ s.groupIds := by
  rw [enrolled_eq]
  exact mem_ensureGroup ua.params.groupId k s

theorem sumOver_enrolled {f : UpstreamAddress → Int} (hf : f ua = 0) :
    sumOver (enrolled s ua) f = sumOver s f := by
  simp only [sumOver, enrolled_count, enrolled_addresses, Finset.sum_range_succ, Function.update_self,
    hf, add_zero]
  apply Finset.sum_congr rfl
  intro i hi
  rw [Function.update_of_ne (ne_of_lt (mem_range.1 hi))]

theorem enrolled_iff {P : UpstreamAddress → Prop} (hnew : ¬ P ua) (hold : ¬ P (s.addresses s.count))
    (i : Nat) : P ((enrolled s ua).addresses i) ↔ P (s.addresses i) := by
  rw [enrolled_addresses]
  by_cases hi : i = s.count
  · rw [hi, Function.update_self]
    exact iff_of_false hnew hold
  · rw [Function.update_of_ne hi]

theorem Placed.enrolled (h : Placed s)
    (hnormal : 1 ≤ ua.params.maxFails ∧ 1 ≤ ua.params.weight ∧ -1 ≤ ua.params.groupId)
    (hgroup : ua.group = none) (hlist : ua.inList = false) : Placed (Upstream.enrolled s ua) := by
  have hcount := h.fresh s.count le_rfl
  constructor
  · intro i hi
    rw [enrolled_count] at hi
    rw [enrolled_addresses, Function.update_of_ne (by omega)]
    exact h.fresh i (by omega)
  · intro i
    rw [enrolled_addresses]
    by_cases hi : i = s.count
    · rw [hi, Function.update_self]
      exact hnormal
    · rw [Function.update_of_ne hi]
      exact h.normal i
  · intro i hi
    rw [enrolled_count] at hi
    rw [enrolled_addresses, mem_enrolled_groupIds]
    by_cases heq : i = s.count
    · left
      rw [heq, Function.update_self]
    · right
      rw [Function.update_of_ne heq]
      exact h.home i (by omega)
  · intro i id hi
    rw [enrolled_addresses] at hi ⊢
    by_cases heq : i = s.count
    · rw [heq, Function.update_self, hgroup] at hi
      cases hi
    · rw [Function.update_of_ne heq] at hi ⊢
      exact h.attached i id hi
  · intro id i
    rw [h.enrolled_group, h.mem_masters]
    exact (enrolled_iff (P := fun a => a.group = some id ∧ a.params.serverType = .master)
      (by simp [hgroup]) (by simp [hcount.1]) i).symm
  · intro id i
    rw [h.enrolled_group, h.mem_slaves]
    exact (enrolled_iff (P := fun a => a.group = some id ∧ a.params.serverType = .slave)
      (by simp [hgroup]) (by simp [hcount.1]) i).symm
  · rw [h.enrolled_group]
    exact h.nodup_masters
  · rw [h.enrolled_group]
    exact h.nodup_slaves
  · intro id i
    rw [h.enrolled_group, h.mem_breakerList]
    exact (enrolled_iff (P := fun a => a.inList = true ∧ a.params.groupId = id)
      (by simp [hlist]) (by simp [hcount.2]) i).symm
  · intro id
    rw [h.enrolled_group, h.weight, sumOver_enrolled (by simp [weightIn, hgroup])]
  · rw [enrolled_totalWeight, h.total, sumOver_enrolled (by simp [masterWeight, hgroup])]
  · intro id hid
    rw [mem_enrolled_groupIds, not_or] at hid
    rw [h.enrolled_group]
    exact h.absent id hid.2
  · rw [enrolled_eq]
    exact nodup_ensureGroup h.nodup_groupIds
  · rw [mem_enrolled_groupIds]
    exact .inr h.default

end Enrolled

theorem newAddress_normal (address : Bytes) (params : AddressParams) (hashes : List Nat) :
    let ua := newAddress address params hashes
    1 ≤ ua.params.maxFails ∧ 1 ≤ ua.params.weight ∧ -1 ≤ ua.params.groupId := by
  simp only [newAddress]
  refine ⟨?_, ?_, ?_⟩ <;> split_ifs <;> omega

theorem newAddress_alive (address : Bytes) (params : AddressParams) (hashes : List Nat) :
    (newAddress address params hashes).alive = true := by
  have hpos := (newAddress_normal address params hashes).1
  exact decide_eq_true (Nat.lt_of_lt_of_le Nat.zero_lt_one hpos)

theorem Placed.join {s : Upstream} (h : Placed s) {i : Nat} {ua : UpstreamAddress} {available : Int}
    (hi : i < s.count) (hua : s.addresses i = ua) (hnone : ua.group = none)
    (hlist : ua.inList = false) :
    Placed (s.restate i { ua with group := some ua.params.groupId } ua.params.groupId
      (joinedGroup (s.group ua.params.groupId) i ua) available (s.totalWeight + ownWeight ua)) := by
  have hmasters : i ∉ (s.group ua.params.groupId).masters := by
    rw [h.mem_masters, hua, hnone]
    simp
  have hslaves : i ∉ (s.group ua.params.groupId).slaves := by
    rw [h.mem_slaves, hua, hnone]
    simp
  apply h.restate hi
  · rw [hua]
  · rw [hua]
  · intro k hk
    exact (Option.some.inj hk).symm
  · intro j
    by_cases hmaster : ua.params.serverType = .master <;> by_cases hj : j = i <;>
      simp [joinedGroup, hmaster, hj, hmasters]
  · intro j
    cases htype : ua.params.serverType <;> by_cases hj : j = i <;>
      simp [joinedGroup, htype, hj, hslaves]
  · simp only [joinedGroup]
    split_ifs
    · rw [← List.concat_eq_append]
      exact (h.nodup_masters _).concat hmasters
    · exact h.nodup_masters _
  · simp only [joinedGroup]
    split_ifs
    · exact h.nodup_slaves _
    · rw [← List.concat_eq_append]
      exact (h.nodup_slaves _).concat hslaves
  · intro j
    split_ifs with hj
    · simp [joinedGroup, h.mem_breakerList, hj, hua, hlist]
    · rfl
  · simp [joinedGroup, weightIn, hua, hnone, ownWeight]
  · simp [masterWeight, hua, hnone, ownWeight]

theorem Placed.add {s : Upstream} (h : Placed s) (address : Bytes) (params : AddressParams)
    (hashes : List Nat) : Placed (s.add address params hashes) := by
  rw [add_eq]
  apply (h.enrolled (newAddress_normal address params hashes) rfl rfl).join
  · simp
  · rw [enrolled_addresses, Function.update_self]
  · rfl
  · rfl

theorem add_addresses (address : Bytes) (params : AddressParams) (hashes : List Nat) (s : Upstream)
    (i : Nat) :
    (s.add address params hashes).addresses i =
      if i = s.count then
        { newAddress address params hashes with
          group := some (newAddress address params hashes).params.groupId }
      else
        s.addresses i := by
  rw [add_eq]
  split_ifs with hi
  · rw [hi, restate_addresses_self]
  · rw [restate_addresses_of_ne hi, enrolled_addresses, Function.update_of_ne hi]

theorem add_serverMap (address : Bytes) (params : AddressParams) (hashes : List Nat) (s : Upstream) :
    (s.add address params hashes).serverMap
      = Function.update s.serverMap address (s.serverMap address ++ [s.count]) := by
  rw [add_eq, restate_serverMap, enrolled_eq]
  rfl

/-- The group that a server leaves. -/
def leftGroup (group : UpstreamGroup) (i : Nat) (ua : UpstreamAddress) : UpstreamGroup :=
  { group with
    nalive := group.nalive - if ua.alive then 1 else 0
    weight := group.weight - ownWeight ua
    masters := if ua.params.serverType = .master then group.masters.erase i else group.masters
    slaves := if ua.params.serverType = .master then group.slaves else group.slaves.erase i }

def leftWeight (s : Upstream) (id : Int) (ua : UpstreamAddress) : Int :=
  s.availableWeight - if ua.alive then lossOf (s.group id) ua else 0

theorem leaveGroup_eq {s : Upstream} {i : Nat} {id : Int} (hgroup : (s.addresses i).group = some id) :
    leaveGroup i s = s.restate i { s.addresses i with group := none } id
      (leftGroup (s.group id) i (s.addresses i)) (leftWeight s id (s.addresses i))
      (s.totalWeight - ownWeight (s.addresses i)) := by
  simp only [leaveGroup, hgroup, loseOneServer_eq, setAddress, setGroup, restate, leftGroup, leftWeight,
    ownWeight]
  split_ifs <;> simp only [Function.update_self, Function.update_idem, sub_zero] <;> rfl

theorem leaveGroup_of_detached {s : Upstream} {i : Nat} (hgroup : (s.addresses i).group = none) :
    leaveGroup i s = s := by
  simp only [leaveGroup, hgroup]

theorem Placed.leaveGroup {s : Upstream} (h : Placed s) (i : Nat) : Placed (leaveGroup i s) := by
  cases hgroup : (s.addresses i).group with
  | none =>
      rw [leaveGroup_of_detached hgroup]
      exact h
  | some id =>
      have hid := h.attached i id hgroup
      rw [leaveGroup_eq hgroup]
      apply h.restate (h.lt_count (by simp [hgroup]))
      · rfl
      · exact hid
      · intro k hk
        cases hk
      · intro j
        by_cases hj : j = i
        · simp only [hj, if_true, leftGroup]
          split_ifs with hmaster
          · simpa using (h.nodup_masters id).not_mem_erase
          · simp [h.mem_masters, hmaster]
        · simp only [hj, if_false, leftGroup]
          split_ifs
          · exact List.mem_erase_of_ne hj
          · rfl
      · intro j
        by_cases hj : j = i
        · simp only [hj, if_true, leftGroup]
          split_ifs with hmaster
          · simp [h.mem_slaves, hmaster]
          · simpa using (h.nodup_slaves id).not_mem_erase
        · simp only [hj, if_false, leftGroup]
          split_ifs
          · rfl
          · exact List.mem_erase_of_ne hj
      · simp only [leftGroup]
        split_ifs
        · exact (h.nodup_masters id).erase i
        · exact h.nodup_masters id
      · simp only [leftGroup]
        split_ifs
        · exact h.nodup_slaves id
        · exact (h.nodup_slaves id).erase i
      · intro j
        split_ifs with hj
        · simp [leftGroup, h.mem_breakerList, hj, hid]
        · rfl
      · simp [leftGroup, weightIn, hgroup, ownWeight, sub_eq_add_neg]
      · simp [masterWeight, hgroup, ownWeight, sub_eq_add_neg]

theorem leaveGroup_addresses (s : Upstream) (i j : Nat) :
    (leaveGroup i s).addresses j
      = if j = i then { s.addresses i with group := none } else s.addresses j := by
  cases hgroup : (s.addresses i).group with
  | none =>
      rw [leaveGroup_of_detached hgroup]
      split_ifs with hj
      · rw [hj, ← hgroup]
      · rfl
  | some id =>
      rw [leaveGroup_eq hgroup]
      split_ifs with hj
      · rw [hj, restate_addresses_self]
      · rw [restate_addresses_of_ne hj]

/-- The loop of `del`. -/
def leaveAll (l : List Nat) (s : Upstream) : Upstream := l.foldl (fun s i => leaveGroup i s) s

theorem Placed.leaveAll {s : Upstream} (h : Placed s) (l : List Nat) : Placed (leaveAll l s) := by
  induction l generalizing s with
  | nil => exact h
  | cons i rest ih => exact ih (h.leaveGroup i)

theorem leaveAll_addresses (l : List Nat) (s : Upstream) (j : Nat) :
    (leaveAll l s).addresses j
      = if j ∈ l then { s.addresses j with group := none } else s.addresses j := by
  induction l generalizing s with
  | nil => simp [leaveAll]
  | cons i rest ih =>
      change (leaveAll rest (leaveGroup i s)).addresses j = _
      rw [ih, leaveGroup_addresses]
      by_cases hj : j = i <;> by_cases hrest : j ∈ rest <;> simp [hj, hrest]

/-- The servers and groups do not depend on the map of servers and the list of all masters. -/
theorem Placed.withLists {s : Upstream} (h : Placed s) (serverMap : Bytes → List Nat)
    (masters : List Nat) : Placed { s with serverMap := serverMap, masters := masters } where
  fresh := h.fresh
  normal := h.normal
  home := h.home
  attached := h.attached
  mem_masters := h.mem_masters
  mem_slaves := h.mem_slaves
  nodup_masters := h.nodup_masters
  nodup_slaves := h.nodup_slaves
  mem_breakerList := h.mem_breakerList
  weight := h.weight
  total := h.total
  absent := h.absent
  nodup_groupIds := h.nodup_groupIds
  default := h.default

structure Housed (s : Upstream) : Prop extends Placed s where
  mem_allMasters : ∀ i, i ∈ s.masters
    ↔ (s.addresses i).group ≠ none ∧ (s.addresses i).params.serverType = .master
  nodup_allMasters : s.masters.Nodup
  mem_serverMap : ∀ address i, i ∈ s.serverMap address
    ↔ (s.addresses i).group ≠ none ∧ (s.addresses i).address = address

theorem Housed.add {s : Upstream} (h : Housed s) (address : Bytes) (params : AddressParams)
    (hashes : List Nat) : Housed (s.add address params hashes) := by
  have hfresh : (s.addresses s.count).group = none := (h.fresh s.count le_rfl).1
  have hcount : s.count ∉ s.masters := by
    rw [h.mem_allMasters, hfresh]
    simp
  have hmasters : (s.add address params hashes).masters
      = if params.serverType = .master then s.masters ++ [s.count] else s.masters := by
    rw [add_eq, restate_masters, enrolled_eq]
    rfl
  refine ⟨h.toPlaced.add address params hashes, ?_, ?_, ?_⟩
  · intro i
    rw [hmasters, add_addresses]
    by_cases hi : i = s.count
    · split_ifs with hmaster <;> simp [hi, hcount, newAddress, hmaster]
    · split_ifs with hmaster <;> simp [hi, h.mem_allMasters]
  · rw [hmasters]
    split_ifs
    · rw [← List.concat_eq_append]
      exact h.nodup_allMasters.concat hcount
    · exact h.nodup_allMasters
  · intro address' i
    rw [add_serverMap, add_addresses]
    by_cases haddress : address' = address
    · rw [haddress, Function.update_self]
      by_cases hi : i = s.count
      · simp [hi, newAddress]
      · simp [hi, h.mem_serverMap]
    · rw [Function.update_of_ne haddress, h.mem_serverMap]
      by_cases hi : i = s.count
      · simp [hi, hfresh, newAddress, Ne.symm haddress]
      · simp [hi]

theorem Housed.del {s : Upstream} (h : Housed s) (address : Bytes) : Housed (s.del address).2 := by
  refine ⟨(h.toPlaced.leaveAll (s.serverMap address)).withLists _ _, ?_, ?_, ?_⟩
  · intro i
    change i ∈ s.masters.filter _ ↔ ((leaveAll (s.serverMap address) s).addresses i).group ≠ none
      ∧ ((leaveAll (s.serverMap address) s).addresses i).params.serverType = .master
    rw [leaveAll_addresses, List.mem_filter, h.mem_allMasters]
    split_ifs with hi
    · simp [((h.mem_serverMap address i).1 hi).2]
    · rw [h.mem_serverMap] at hi
      simp only [decide_not, Bool.not_eq_true', decide_eq_false_iff_not]
      tauto
  · exact h.nodup_allMasters.filter _
  · intro address' i
    change i ∈ Function.update s.serverMap address [] address'
      ↔ ((leaveAll (s.serverMap address) s).addresses i).group ≠ none
        ∧ ((leaveAll (s.serverMap address) s).addresses i).address = address'
    rw [leaveAll_addresses]
    by_cases haddress : address' = address
    · rw [haddress, Function.update_self]
      split_ifs with hi
      · simp
      · rw [h.mem_serverMap] at hi
        simpa using hi
    · rw [Function.update_of_ne haddress, h.mem_serverMap]
      split_ifs with hi
      · simp [((h.mem_serverMap address i).1 hi).2, Ne.symm haddress]
      · rfl

end WorkflowModel.Manager.Upstream
