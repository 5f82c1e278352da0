import WorkflowModel.Proof.UpstreamTouches
import Mathlib.Data.Finset.Card

/-!
# What `del` removes and what it counts

`del` takes every server with the address out of all four containers, whatever its type and group. Its
result is the number of entries that the list of all masters has lost, so the slaves among them are not
counted.
-/

namespace WorkflowModel.Manager.Upstream

open WorkflowModel Finset

/-- The servers with an address: those that were added and not removed since. -/
def present (address : Bytes) (s : Upstream) : Finset Nat :=
  (range s.count).filter fun i => (s.addresses i).group ≠ none ∧ (s.addresses i).address = address

/-- Every server with the address is gone from the containers, and the other servers are as before. -/
structure Removed (address : Bytes) (s t : Upstream) : Prop where
  gone : ∀ i ∈ s.present address, i ∉ t.masters ∧ (∀ a, i ∉ t.serverMap a)
    ∧ ∀ id, i ∉ (t.group id).masters ∧ i ∉ (t.group id).slaves
  order : t.masters = s.masters.filter (· ∉ s.present address)
  others : ∀ i ∉ s.present address, t.addresses i = s.addresses i
    ∧ (∀ a, i ∈ t.serverMap a ↔ i ∈ s.serverMap a)
    ∧ ∀ id, (i ∈ (t.group id).masters ↔ i ∈ (s.group id).masters)
      ∧ (i ∈ (t.group id).slaves ↔ i ∈ (s.group id).slaves)

variable {s : Upstream}

theorem Housed.mem_present (h : Housed s) (address : Bytes) (i : Nat) :
    i ∈ s.present address ↔ (s.addresses i).group ≠ none ∧ (s.addresses i).address = address := by
  rw [present, mem_filter, mem_range]
  exact and_iff_right_of_imp fun hi => h.lt_count hi.1

theorem Housed.del_addresses (h : Housed s) (address : Bytes) (i : Nat) :
    (s.del address).2.addresses i
      = if i ∈ s.present address then { s.addresses i with group := none } else s.addresses i := by
  change (leaveAll (s.serverMap address) s).addresses i = _
  rw [leaveAll_addresses]
  simp only [h.mem_serverMap, h.mem_present]

theorem Housed.del_masters (h : Housed s) (address : Bytes) :
    (s.del address).2.masters = s.masters.filter (· ∉ s.present address) := by
  change s.masters.filter (fun i => (s.addresses i).address ≠ address) = _
  apply List.filter_congr
  intro i hi
  rw [h.mem_allMasters] at hi
  simp [h.mem_present, hi.1]

theorem Housed.removed (h : Housed s) (address : Bytes) : Removed address s (s.del address).2 := by
  have hdel := h.del address
  refine ⟨?_, h.del_masters address, ?_⟩
  · intro i hi
    have hnone : ((s.del address).2.addresses i).group = none := by
      rw [h.del_addresses, if_pos hi]
    rw [hdel.mem_allMasters]
    simp only [hdel.mem_serverMap, hdel.mem_masters, hdel.mem_slaves, hnone]
    simp
  · intro i hi
    have hsame : (s.del address).2.addresses i = s.addresses i := by
      rw [h.del_addresses, if_neg hi]
    refine ⟨hsame, ?_, ?_⟩
    · intro a
      rw [hdel.mem_serverMap, hsame, h.mem_serverMap]
    · intro id
      rw [hdel.mem_masters, hdel.mem_slaves, hsame, h.mem_masters, h.mem_slaves]
      exact ⟨Iff.rfl, Iff.rfl⟩

/-- `del` returns the number of masters with the address. -/
theorem Housed.del_count (h : Housed s) (address : Bytes) :
    (s.del address).1
      = ((s.present address).filter fun i => (s.addresses i).params.serverType = .master).card := by
  have hsplit : (s.masters.filter fun i => (s.addresses i).address = address).length
      + (s.masters.filter fun i => (s.addresses i).address ≠ address).length = s.masters.length := by
    simpa using (List.length_eq_length_filter_add
      (l := s.masters) fun i => decide ((s.addresses i).address = address)).symm
  have hset : (s.masters.filter fun i => (s.addresses i).address = address).toFinset
      = (s.present address).filter fun i => (s.addresses i).params.serverType = .master := by
    ext i
    simp only [List.mem_toFinset, List.mem_filter, h.mem_allMasters, mem_filter, h.mem_present,
      decide_eq_true_eq]
    tauto
  calc
    (s.del address).1
        = s.masters.length
          - (s.masters.filter fun i => (s.addresses i).address ≠ address).length := rfl
    _ = (s.masters.filter fun i => (s.addresses i).address = address).length := by omega
    _ = (s.masters.filter fun i => (s.addresses i).address = address).toFinset.card :=
        (List.toFinset_card_of_nodup (h.nodup_allMasters.filter _)).symm
    _ = _ := by rw [hset]

/-- In any state a run reaches, `del` removes the servers with the address and nothing else. It returns how
many they were exactly when none of them is a slave. -/
theorem del_counts_iff (ops : List Op) (address : Bytes) :
    let s := run emptyUpstream ops
    ((s.del address).1 = (s.present address).card ∧ Removed address s (s.del address).2)
      ↔ ∀ i ∈ s.present address, (s.addresses i).params.serverType = .master := by
  intro s
  have h : Housed s := (linked_emptyUpstream.run ops).toHoused
  rw [h.del_count, card_filter_eq_iff]
  exact and_iff_left (h.removed address)

/-- A slave is removed, and `del` returns 0. -/
theorem not_del_counts_oneSlave :
    let s := run emptyUpstream [.add [1] ⟨1, 1, .slave, -1⟩ []]
    ¬ ((s.del [1]).1 = (s.present [1]).card ∧ Removed [1] s (s.del [1]).2) := by
  intro s hcounts
  exact absurd hcounts.1 (by decide)

end WorkflowModel.Manager.Upstream
